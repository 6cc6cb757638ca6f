import Mathlib.Data.List.Nodup
import ReportModel.Document.Sheets
import ReportModel.Proofs.Module.Reachable

/-!
# External links

The links of a document are those of its root, of its theme and of the roots and themes of its
libraries, in this order. Of the inclusions with one external address the first gives the link. The
roots of the libraries count only for addresses that nothing in front of them has: if they have none
of these, the links are those of the document, its theme and the themes of its libraries.
-/

namespace ReportModel

def OwnedElement.sheets (r : OwnedElement) : List Css.Inclusion :=
  r.document.sheets r.id

namespace Document

variable {d : Document} {seen seen' : List String} {uri : String} {xs : List Css.Inclusion}

/-! ## The first link for each address -/

def addresses (xs : List Css.Inclusion) : List String :=
  xs.filterMap (·.link.externalUri)

/-- The link of an inclusion that has an address other than those seen. -/
def newLink? (seen : List String) (x : Css.Inclusion) : Option Css.Link :=
  if x.link.externalUri.any (· ∉ seen) then some x.link else none

/-- The links of the inclusions that have an address that none in front of them has. -/
def newLinks (xs : List Css.Inclusion) : List Css.Link :=
  (List.range xs.length).filterMap fun i => xs[i]?.bind (newLink? (addresses (xs.take i)))

theorem addresses_append (xs ys : List Css.Inclusion) :
    addresses (xs ++ ys) = addresses xs ++ addresses ys :=
  List.filterMap_append

theorem mem_addresses :
    uri ∈ addresses xs ↔ ∃ inclusion ∈ xs, inclusion.link.externalUri = some uri :=
  List.mem_filterMap

theorem mem_addresses_flatMap {hosts : List OwnedElement} :
    uri ∈ addresses (hosts.flatMap (·.sheets)) ↔ ∃ host ∈ hosts, uri ∈ addresses host.sheets := by
  simp only [addresses, List.filterMap_flatMap, List.mem_flatMap]

theorem addresses_cons (x : Css.Inclusion) (xs : List Css.Inclusion) :
    addresses (x :: xs) = addresses [x] ++ addresses xs :=
  addresses_append [x] xs

theorem mem_addresses_singleton {x : Css.Inclusion} :
    uri ∈ addresses [x] ↔ x.link.externalUri = some uri := by
  rw [mem_addresses]
  simp only [List.mem_singleton, exists_eq_left]

theorem newLink?_eq_some {x : Css.Inclusion} {link : Css.Link} : newLink? seen x = some link ↔
    x.link = link ∧ ∃ uri, x.link.externalUri = some uri ∧ uri ∉ seen := by
  rw [newLink?, Option.ite_none_right_eq_some, Option.any_eq_true]
  simp only [decide_eq_true_eq, Option.some.injEq, and_comm]

/-- Of the addresses seen only the set matters. -/
theorem firstLinks_congr (h : ∀ uri, uri ∈ seen ↔ uri ∈ seen') (xs : List Css.Inclusion) :
    firstLinks seen xs = firstLinks seen' xs := by
  induction xs generalizing seen seen' with
  | nil => rfl
  | cons x xs ih =>
      rw [firstLinks, firstLinks]
      cases x.link.externalUri with
      | none => exact ih h
      | some uri =>
          have hcontains : seen.contains uri = seen'.contains uri := by
            rw [Bool.eq_iff_iff, List.contains_iff_mem, List.contains_iff_mem, h]
          have hmore : firstLinks (uri :: seen) xs = firstLinks (uri :: seen') xs :=
            ih fun other => by rw [List.mem_cons, List.mem_cons, h]
          simp only [hcontains, ih h, hmore]

theorem firstLinks_cons (seen : List String) (x : Css.Inclusion) (xs : List Css.Inclusion) :
    firstLinks seen (x :: xs) =
      (newLink? seen x).toList ++ firstLinks (seen ++ addresses [x]) xs := by
  rw [firstLinks, newLink?]
  cases huri : x.link.externalUri with
  | none => simp [addresses, huri]
  | some uri =>
      by_cases hmem : uri ∈ seen
      · have hsame : firstLinks (seen ++ addresses [x]) xs = firstLinks seen xs :=
          firstLinks_congr (fun other => by simp_all [addresses]) xs
        simp [hmem, hsame]
      · have hmore : firstLinks (seen ++ addresses [x]) xs = firstLinks (uri :: seen) xs :=
          firstLinks_congr (fun other => by simp [addresses, huri, or_comm]) xs
        simp [hmem, hmore]

/-- What is seen at a place are the addresses in front of it. -/
theorem firstLinks_addresses (front xs : List Css.Inclusion) :
    firstLinks (addresses front) xs = (List.range' front.length xs.length).filterMap fun i =>
      (front ++ xs)[i]?.bind (newLink? (addresses ((front ++ xs).take i))) := by
  induction xs generalizing front with
  | nil => rfl
  | cons x xs ih =>
      have hat : (front ++ x :: xs)[front.length]?.bind
          (newLink? (addresses ((front ++ x :: xs).take front.length))) =
            newLink? (addresses front) x := by
        simp
      have happend : front ++ x :: xs = (front ++ [x]) ++ xs := by simp
      have hlength : front.length + 1 = (front ++ [x]).length := by simp
      rw [firstLinks_cons, ← addresses_append, ih, List.length_cons, List.range'_succ,
        List.filterMap_cons, hat, happend, hlength]
      cases newLink? (addresses front) x <;> rfl

theorem firstLinks_append (seen : List String) (xs ys : List Css.Inclusion) :
    firstLinks seen (xs ++ ys) = firstLinks seen xs ++ firstLinks (seen ++ addresses xs) ys := by
  induction xs generalizing seen with
  | nil => simp [firstLinks, addresses]
  | cons x xs ih =>
      rw [List.cons_append, firstLinks_cons, firstLinks_cons, ih, addresses_cons x xs]
      simp only [List.append_assoc]

theorem firstLinks_eq_newLinks (xs : List Css.Inclusion) : firstLinks [] xs = newLinks xs := by
  have hall := firstLinks_addresses [] xs
  rwa [List.length_nil, ← List.range_eq_range'] at hall

theorem mem_firstLinks : (∃ link ∈ firstLinks seen xs, link.externalUri = some uri) ↔
    uri ∈ addresses xs ∧ uri ∉ seen := by
  induction xs generalizing seen with
  | nil => simp [firstLinks, addresses]
  | cons x xs ih =>
      have hfirst : (∃ link, newLink? seen x = some link ∧ link.externalUri = some uri) ↔
          uri ∈ addresses [x] ∧ uri ∉ seen := by
        rw [mem_addresses_singleton]
        constructor
        · rintro ⟨link, hlink, huri⟩
          obtain ⟨rfl, other, hother, hnew⟩ := newLink?_eq_some.1 hlink
          obtain rfl := Option.some.inj (hother.symm.trans huri)
          exact ⟨huri, hnew⟩
        · rintro ⟨huri, hnew⟩
          exact ⟨x.link, newLink?_eq_some.2 ⟨rfl, uri, huri, hnew⟩, huri⟩
      rw [firstLinks_cons, addresses_cons x xs]
      simp only [List.mem_append, or_and_right, exists_or, Option.mem_toList]
      rw [hfirst, ih, List.mem_append]
      tauto

theorem nodup_firstLinks (seen : List String) (xs : List Css.Inclusion) :
    ((firstLinks seen xs).map (·.externalUri)).Nodup := by
  induction xs generalizing seen with
  | nil => exact List.nodup_nil
  | cons x xs ih =>
      rw [firstLinks_cons]
      cases hnew : newLink? seen x with
      | none => exact ih _
      | some link =>
          obtain ⟨rfl, uri, huri, -⟩ := newLink?_eq_some.1 hnew
          refine List.nodup_cons.2 ⟨fun hmem => ?_, ih _⟩
          have hlater : ∃ link ∈ firstLinks (seen ++ addresses [x]) xs,
              link.externalUri = some uri := by
            simpa [huri] using List.mem_map.1 hmem
          exact (mem_firstLinks.1 hlater).2
            (List.mem_append_right _ (mem_addresses_singleton.2 huri))

theorem firstLinks_eq_nil (h : ∀ uri ∈ addresses xs, uri ∈ seen) : firstLinks seen xs = [] := by
  induction xs generalizing seen with
  | nil => rfl
  | cons x xs ih =>
      rw [addresses_cons, List.forall_mem_append] at h
      have hnone : newLink? seen x = none := by
        refine Option.eq_none_iff_forall_ne_some.2 fun link hlink => ?_
        obtain ⟨-, uri, huri, hnew⟩ := newLink?_eq_some.1 hlink
        exact hnew (h.1 uri (mem_addresses_singleton.2 huri))
      rw [firstLinks_cons, hnone, ih fun uri huri => List.mem_append_left _ (h.2 uri huri)]
      rfl

/-- Inclusions with no address but some that were seen can be left out. -/
theorem firstLinks_append_of_seen (h : ∀ uri ∈ addresses xs, uri ∈ seen)
    (ys : List Css.Inclusion) : firstLinks seen (xs ++ ys) = firstLinks seen ys := by
  have hsame : firstLinks (seen ++ addresses xs) ys = firstLinks seen ys :=
    firstLinks_congr (fun uri => by rw [List.mem_append, or_iff_left_of_imp (h uri)]) ys
  rw [firstLinks_append, firstLinks_eq_nil h, hsame, List.nil_append]

/-! ## Hosts -/

def themes (d : Document) : List OwnedElement :=
  (d.tree.contents d.root Vocabulary.themesSlot).map (⟨d, ·⟩)

/-- The root of a document, its theme, and some elements of its libraries. -/
def hostsWith (d : Document) (ofLibrary : Document → List OwnedElement) : List OwnedElement :=
  ⟨d, d.root⟩ :: (d.theme?.toList ++ d.libraries.flatMap fun library => ofLibrary library.content)

def linkHosts (d : Document) : List OwnedElement :=
  d.hostsWith fun library => ⟨library, library.root⟩ :: library.themes

/-- The root of a document, its theme and the themes of its libraries. -/
def themeHosts (d : Document) : List OwnedElement :=
  d.hostsWith themes

def ownSheets (d : Document) : List Css.Inclusion :=
  d.sheets d.root ++ d.theme?.toList.flatMap (·.sheets)

theorem flatMap_hostsWith (d : Document) (ofLibrary : Document → List OwnedElement) :
    (d.hostsWith ofLibrary).flatMap (·.sheets) = d.ownSheets ++
      d.libraries.flatMap fun library => (ofLibrary library.content).flatMap (·.sheets) := by
  simp [hostsWith, ownSheets, OwnedElement.sheets, List.flatMap_assoc]

theorem mem_linkHosts {host : OwnedElement} : host ∈ d.linkHosts ↔
    host ∈ d.themeHosts ∨
      ∃ library ∈ d.libraries, host = ⟨library.content, library.content.root⟩ := by
  simp only [linkHosts, themeHosts, hostsWith, List.mem_cons, List.mem_append, List.mem_flatMap]
  constructor
  · rintro (hroot | htheme | ⟨library, hlibrary, hown | hthemes⟩)
    · exact Or.inl (Or.inl hroot)
    · exact Or.inl (Or.inr (Or.inl htheme))
    · exact Or.inr ⟨library, hlibrary, hown⟩
    · exact Or.inl (Or.inr (Or.inr ⟨library, hlibrary, hthemes⟩))
  · rintro ((hroot | htheme | ⟨library, hlibrary, hthemes⟩) | ⟨library, hlibrary, hown⟩)
    · exact Or.inl hroot
    · exact Or.inr (Or.inl htheme)
    · exact Or.inr (Or.inr ⟨library, hlibrary, Or.inr hthemes⟩)
    · exact Or.inr (Or.inr ⟨library, hlibrary, Or.inl hown⟩)

theorem linkedInclusions_eq (d : Document) :
    d.linkedInclusions = d.linkHosts.flatMap (·.sheets) := by
  have htheme : (d.theme?.map fun theme => theme.document.sheets theme.id).getD [] =
      d.theme?.toList.flatMap (·.sheets) := by
    cases d.theme? <;> simp [OwnedElement.sheets]
  rw [linkedInclusions, htheme, linkHosts, flatMap_hostsWith, ownSheets]
  simp [themes, OwnedElement.sheets, List.flatMap_map]

/-- The roots of some libraries that have no address but some that were seen can be left out. -/
theorem firstLinks_libraries {libraries : List Library}
    (h : ∀ library ∈ libraries,
      ∀ uri ∈ addresses (library.content.sheets library.content.root), uri ∈ seen) :
    firstLinks seen (libraries.flatMap fun library =>
      library.content.sheets library.content.root ++ library.content.themes.flatMap (·.sheets)) =
    firstLinks seen (libraries.flatMap fun library =>
      library.content.themes.flatMap (·.sheets)) := by
  induction libraries generalizing seen with
  | nil => rfl
  | cons library libraries ih =>
      obtain ⟨hfirst, hmore⟩ := List.forall_mem_cons.1 h
      rw [List.flatMap_cons, List.flatMap_cons, List.append_assoc,
        firstLinks_append_of_seen hfirst, firstLinks_append, firstLinks_append,
        ih fun other hother uri huri => List.mem_append_left _ (hmore other hother uri huri)]

/-- The external links of a document: of the inclusions of its root, its theme, and the root and the
themes of each of its libraries, in this order, the first one for each address. Beside the addresses
of the document, its theme and the themes of its libraries there are just those of the roots of the
libraries; where these are addresses of the document or its theme, the roots can be left out. -/
theorem externalLinks_exact (d : Document) :
    d.externalLinks = newLinks (d.linkHosts.flatMap (·.sheets)) ∧
    (d.externalLinks.map (·.externalUri)).Nodup ∧
    (∀ uri, (∃ link ∈ d.externalLinks, link.externalUri = some uri) ↔
      (∃ host ∈ d.themeHosts, uri ∈ addresses host.sheets) ∨
        ∃ library ∈ d.libraries, uri ∈ addresses (library.content.sheets library.content.root)) ∧
    ((∀ library ∈ d.libraries, ∀ uri ∈ addresses (library.content.sheets library.content.root),
        uri ∈ addresses d.ownSheets) →
      d.externalLinks = newLinks (d.themeHosts.flatMap (·.sheets))) := by
  have hlinks : d.externalLinks = firstLinks [] (d.linkHosts.flatMap (·.sheets)) := by
    rw [externalLinks, linkedInclusions_eq]
  refine ⟨hlinks.trans (firstLinks_eq_newLinks _), ?_, fun uri => ?_, fun h => ?_⟩
  · rw [hlinks]
    exact nodup_firstLinks _ _
  · rw [hlinks, mem_firstLinks, and_iff_left List.not_mem_nil, mem_addresses_flatMap]
    simp only [mem_linkHosts, or_and_right, exists_or]
    refine or_congr_right ⟨?_, ?_⟩
    · rintro ⟨_, ⟨library, hlibrary, rfl⟩, huri⟩
      exact ⟨library, hlibrary, huri⟩
    · rintro ⟨library, hlibrary, huri⟩
      exact ⟨_, ⟨library, hlibrary, rfl⟩, huri⟩
  · have hroots : d.linkHosts.flatMap (·.sheets) = d.ownSheets ++ d.libraries.flatMap fun library =>
        library.content.sheets library.content.root ++
          library.content.themes.flatMap (·.sheets) := by
      rw [linkHosts, flatMap_hostsWith]
      simp only [List.flatMap_cons, OwnedElement.sheets]
    rw [hlinks, ← firstLinks_eq_newLinks, hroots, themeHosts, flatMap_hostsWith, firstLinks_append,
      firstLinks_append, List.nil_append, firstLinks_libraries h]

def including (host : Nat) (fileName : String) (uri : Option String) : Input :=
  .perform .empty (.addSheet ⟨host, 0⟩ { fileName, externalUri := uri }
    ⟨fileName, [], []⟩)

def shelved (inputs : List Input) : Module :=
  Module.run
    { editor :=
      { document :=
          { serial := 1, depthLimit := 32, tree := .new Vocabulary.reports "Library"
            libraries := [] }
        history := { limit := 100 } } } inputs

theorem reachable_shelved (inputs : List Input) : (shelved inputs).Reachable :=
  Module.Reachable.run (.new (rfl : Module.new 1 "Library" {} = .ok _)) inputs

/-- A library with a theme that includes two stylesheets. -/
def colors : Module :=
  shelved (Module.placing 1 "Theme" (some "T") 0 "themes" ++
    [including 0 "e.css" (some "a"), including 1 "c.css" (some "a"),
      including 1 "d.css" (some "d")])

/-- A design whose theme is that of a library. -/
def colored : Module :=
  Module.blank.run [including 0 "a.css" (some "a"), including 0 "b.css" none,
    .perform .empty (.includeLibrary "lib" colors.document),
    .perform .empty (.setValue ⟨0, 0⟩ "theme" (.string "lib.T"))]

theorem externalLinks_colored :
    colored.document.theme?.map (·.id) = some ⟨1, 0⟩ ∧
    colored.document.externalLinks = newLinks (colored.document.themeHosts.flatMap (·.sheets)) ∧
    colored.document.externalLinks =
      [{ fileName := "a.css", externalUri := some "a" },
        { fileName := "d.css", externalUri := some "d" }] := by
  obtain ⟨-, -, -, hthemes⟩ := externalLinks_exact colored.document
  exact ⟨by decide +kernel, hthemes (by decide +kernel), by decide +kernel⟩

/-- A library whose root includes a stylesheet. -/
def press : Module :=
  shelved [including 0 "print.css" (some "print")]

/-- A design with the library. -/
def printed : Module :=
  Module.blank.run [.perform .empty (.includeLibrary "lib" press.document)]

/-- Neither the design nor a theme includes anything, and there is a link. -/
theorem externalLinks_printed :
    press.Reachable ∧ printed.Reachable ∧
    printed.document.themeHosts.map (·.id) = [printed.document.root] ∧
    printed.document.themeHosts.flatMap (·.sheets) = [] ∧
    printed.document.externalLinks =
      [{ fileName := "print.css", externalUri := some "print" }] :=
  ⟨reachable_shelved _, Module.reachable_blank.run _, by decide +kernel, by decide +kernel,
    by decide +kernel⟩

end Document

end ReportModel
