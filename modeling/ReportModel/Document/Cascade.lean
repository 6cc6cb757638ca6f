import ReportModel.Document.Bases
import ReportModel.Error
import ReportModel.Tree.Matching

/-!
# The cascade of styles

The effective value of a style property comes from the first of these places that has one: the
element itself; a shared style of the module, the one the element names before the one named after
its type; the stylesheets of the root, in the order of their inclusion; the active theme, its styles
before its stylesheets; the base of the element, where all this is asked in the base's own module;
and last the default. The answer tells the place.
-/

namespace ReportModel

/-- The place that an effective value comes from. -/
inductive Source where
  | own
  | sharedStyle (name : String)
  | sheet (fileName : String)
  | themeStyle (theme style : String)
  | themeSheet (theme fileName : String)
  /-- The base of the element, and where the value comes from there. -/
  | base (library : Option String) (via : Source)
  | default
deriving DecidableEq, Repr

namespace Tree

variable (t : Tree)

/-- The shared styles of a host that apply to an element: the one it names, then the one named after
its type in any case. -/
def candidateStyles (host : ElementId) (e : Element) : List Element :=
  let styles := (t.contents host Vocabulary.stylesSlot).filterMap t.get?
  let named := (e.text? Vocabulary.styleProperty).bind fun name =>
    styles.find? (·.name = some name)
  let predefined := styles.find? fun style => style.name.any (equalIgnoringCase · e.typeName)
  named.toList ++ predefined.toList

/-- The first value of a property among the shared styles that apply, with the style's name. -/
def styleValue? (host : ElementId) (e : Element) (property : String) : Option (String × Value) :=
  (t.candidateStyles host e).findSome? fun style =>
    style.name.bind fun name => (style.value? property).map (name, ·)

end Tree

namespace Document

variable (d : Document)

/-- The first value that some included stylesheets give to a property of an element of this
document, with the name of the file. -/
def sheetValue? (sheets : List Css.Inclusion) (id : ElementId) (property : String) :
    Option (String × Value) :=
  sheets.findSome? fun inclusion =>
    (inclusion.sheet.resolve property d.tree id).map (inclusion.fileName, ·)

def themeValue? (id : ElementId) (e : Element) (property : String) : Option (Value × Source) :=
  d.theme?.bind fun theme =>
    let name := (theme.get?.bind (·.name)).getD ""
    let styled := (theme.document.tree.styleValue? theme.id e property).map fun (style, value) =>
      (value, Source.themeStyle name style)
    let sheeted := (d.sheetValue? (theme.document.sheets theme.id) id property).map
      fun (fileName, value) => (value, Source.themeSheet name fileName)
    styled <|> sheeted

/-- The value of a property of an element without its base and the default. -/
def localValue? (id : ElementId) (e : Element) (property : String) : Option (Value × Source) :=
  (e.value? property).map (·, Source.own) <|>
    ((d.tree.styleValue? d.root e property).map fun (style, value) =>
      (value, Source.sharedStyle style)) <|>
    ((d.sheetValue? (d.sheets d.root) id property).map fun (fileName, value) =>
      (value, Source.sheet fileName)) <|>
    d.themeValue? id e property

theorem sizeOf_library_lt {d : Document} {library : Library} (h : library ∈ d.libraries) :
    sizeOf library.content < sizeOf d := by
  have hmem := List.sizeOf_lt_of_mem h
  obtain ⟨serial, depthLimit, tree, libraries⟩ := d
  obtain ⟨nameSpace, content⟩ := library
  simp only [Document.mk.sizeOf_spec, Included.mk.sizeOf_spec] at *
  omega

theorem owner?_eq_or_lt {d owner : Document} {library : Option String}
    (h : d.owner? library = some owner) : owner = d ∨ sizeOf owner < sizeOf d := by
  cases library with
  | none => exact Or.inl (Option.some.inj h).symm
  | some nameSpace =>
    simp only [owner?, library?, Option.map_eq_some_iff] at h
    obtain ⟨found, hfound, rfl⟩ := h
    exact Or.inr (sizeOf_library_lt (List.mem_of_find?_eq_some hfound))

theorem base?_eq_or_lt {d : Document} {id : ElementId} {base : OwnedElement}
    (h : d.base? id = some base) :
    base.document = d ∨ sizeOf base.document < sizeOf d := by
  simp only [base?, Option.bind_eq_some_iff, Option.filter_eq_some_iff] at h
  obtain ⟨e, -, ⟨reference, -, hlookup⟩, -⟩ := h
  simp only [lookup, Option.bind_eq_some_iff, Option.map_eq_some_iff] at hlookup
  obtain ⟨owner, howner, -, -, -, -, rfl⟩ := hlookup
  exact owner?_eq_or_lt howner

/-- The value of a style property of an element that is `depth` bases away from the one asked about,
without the default. -/
def cascade (d : Document) (id : ElementId) (property : String) (depth : Nat) :
    Option (Value × Source) :=
  match d.get? id with
  | none => none
  | some e =>
    match d.localValue? id e property with
    | some found => some found
    | none =>
      if _hdepth : depth < d.depthLimit then
        match hbase : d.base? id with
        | none => none
        | some base =>
          (cascade base.document base.id property (depth + 1)).map fun (value, via) =>
            (value, .base (e.base.bind (·.library)) via)
      else none
termination_by (sizeOf d, d.depthLimit - depth)
decreasing_by
  rcases base?_eq_or_lt hbase with heq | hlt
  · rw [heq]
    exact Prod.Lex.right _ (by omega)
  · exact Prod.Lex.left _ _ hlt

/-- The effective value of a style property of an element and the place it comes from. -/
def effectiveValue? (id : ElementId) (property : String) : Option (Value × Source) :=
  d.cascade id property 0 <|> (d.default? id property).map (·, Source.default)

def effectiveValues (id : ElementId) (properties : List PropertyDef) :
    SortedMap String (Value × Source) :=
  .ofList (properties.filterMap fun definition =>
    (d.effectiveValue? id definition.name).map (definition.name, ·))

/-- The effective values of the style properties that the type of an element defines. -/
def effectiveStyle (id : ElementId) : Except DesignError (SortedMap String (Value × Source)) :=
  match d.get? id with
  | some e => .ok (d.effectiveValues id (d.tree.dictionary.styleProperties e.typeName))
  | none => .error (.elementNotFound id)

end Document

end ReportModel
