import Mathlib.Data.List.Perm.Basic
import ReportModel.Proofs.Tree.Forest
import ReportModel.Tree.Queries

/-!
# Searches down a tree

A search looks at an element, lists something there and goes on with elements directly inside it. A
loop over an agenda does the same step by step, the agenda being a stack or a queue. In a forest
every way down ends: so the loops end, and a search through as many levels as the arena has places
leaves nothing out.
-/

namespace ReportModel

theorem flatMap_ite_nil {α β : Type} (p : α → Bool) (f : α → List β) (l : List α) :
    (l.flatMap fun a => if p a = true then f a else []) = (l.filter p).flatMap f := by
  induction l with
  | nil => rfl
  | cons a l ih =>
      rw [List.flatMap_cons, ih]
      by_cases ha : p a = true <;> simp [ha]

/-- What a search does at an element: what it lists there, and what it looks at next. -/
structure SearchStep where
  listed : List ElementId
  next : List ElementId

def searchUpTo (look : ElementId → SearchStep) : Nat → ElementId → List ElementId
  | 0, _ => []
  | fuel + 1, id => (look id).listed ++ (look id).next.flatMap (searchUpTo look fuel)

/-- The elements to look at next go on top of the agenda. -/
def onTop (next agenda : List ElementId) : List ElementId :=
  next ++ agenda

/-- The elements to look at next go to the end of the agenda. -/
def atEnd (next agenda : List ElementId) : List ElementId :=
  agenda ++ next

/-- The loop that takes the first element off an agenda and looks at it, until the agenda is empty,
comes to an end, and what it has listed then. -/
inductive Exhausts (look : ElementId → SearchStep)
    (join : List ElementId → List ElementId → List ElementId) :
    List ElementId → List ElementId → Prop
  | done : Exhausts look join [] []
  | turn {id : ElementId} {agenda listed : List ElementId}
      (rest : Exhausts look join (join (look id).next agenda) listed) :
      Exhausts look join (id :: agenda) ((look id).listed ++ listed)

namespace Exhausts

variable {look : ElementId → SearchStep} {join : List ElementId → List ElementId → List ElementId}
  {agenda listed listed' : List ElementId}

theorem unique (h : Exhausts look join agenda listed) (h' : Exhausts look join agenda listed') :
    listed = listed' := by
  induction h generalizing listed' with
  | done =>
      cases h'
      rfl
  | turn _ ih =>
      cases h' with
      | turn rest' => rw [ih rest']

/-- What a stack has on top is worked off before what is below it. -/
theorem append_onTop {found : ElementId → List ElementId} (top : List ElementId)
    (hone : ∀ c ∈ top, ∀ {agenda listed}, Exhausts look onTop agenda listed →
      Exhausts look onTop (c :: agenda) (found c ++ listed))
    (h : Exhausts look onTop agenda listed) :
    Exhausts look onTop (top ++ agenda) (top.flatMap found ++ listed) := by
  induction top with
  | nil => exact h
  | cons c top ih =>
      rw [List.flatMap_cons, List.append_assoc]
      exact hone c List.mem_cons_self (ih fun c hc => hone c (List.mem_cons_of_mem _ hc))

theorem append_level (level : List ElementId)
    (h : Exhausts look atEnd (agenda ++ level.flatMap fun x => (look x).next) listed) :
    Exhausts look atEnd (level ++ agenda) ((level.flatMap fun x => (look x).listed) ++ listed) := by
  induction level generalizing agenda with
  | nil => simpa using h
  | cons x level ih =>
      have hrest : Exhausts look atEnd (level ++ atEnd (look x).next agenda)
          ((level.flatMap fun x => (look x).listed) ++ listed) := by
        apply ih
        simpa [atEnd] using h
      have hturn : Exhausts look atEnd (x :: (level ++ agenda))
          ((look x).listed ++ ((level.flatMap fun x => (look x).listed) ++ listed)) :=
        .turn (by simpa [atEnd] using hrest)
      simpa using hturn

/-- A queue is worked off level by level. -/
theorem level {level : List ElementId}
    (h : Exhausts look atEnd (level.flatMap fun x => (look x).next) listed) :
    Exhausts look atEnd level ((level.flatMap fun x => (look x).listed) ++ listed) := by
  rw [← List.nil_append (level.flatMap fun x => (look x).next)] at h
  have hlevel := append_level level h
  rwa [List.append_nil] at hlevel

end Exhausts

namespace Tree

variable {t : Tree} {x y c start : ElementId} {look : ElementId → SearchStep}

def walkStep (t : Tree) (id : ElementId) : SearchStep :=
  if t.contains id then ⟨[id], t.children id⟩ else ⟨[], []⟩

/-- What the search for items made from templates does at an element: it goes on only if the element
is not such an item. -/
def templateStep (t : Tree) (id : ElementId) : SearchStep :=
  match t.get? id with
  | none => ⟨[], []⟩
  | some e =>
    if (e.value? Vocabulary.templateProperty).isSome then ⟨[id], []⟩ else ⟨[], e.children⟩

theorem listed_walkStep (t : Tree) (id : ElementId) :
    (t.walkStep id).listed = if t.contains id = true then [id] else [] := by
  rw [walkStep]
  split <;> rfl

theorem next_walkStep (t : Tree) (id : ElementId) :
    (t.walkStep id).next = if t.contains id = true then t.children id else [] := by
  rw [walkStep]
  split <;> rfl

theorem walkUpTo_eq (t : Tree) (fuel : Nat) (id : ElementId) :
    t.walkUpTo fuel id = searchUpTo t.walkStep fuel id := by
  induction fuel generalizing id with
  | zero => rfl
  | succ fuel ih =>
      rw [walkUpTo, searchUpTo, walkStep, funext ih]
      split <;> rfl

theorem templateItemsUpTo_eq (t : Tree) (fuel : Nat) (id : ElementId) :
    t.templateItemsUpTo fuel id = searchUpTo t.templateStep fuel id := by
  induction fuel generalizing id with
  | zero => rfl
  | succ fuel ih =>
      rw [templateItemsUpTo, searchUpTo, templateStep, funext ih]
      cases t.get? id with
      | none => rfl
      | some e =>
          dsimp only
          split <;> simp

theorem children_eq_nil (h : ¬ t.contains x = true) : t.children x = [] := by
  cases he : t.get? x with
  | none => simp [children, he]
  | some e => exact absurd (contains_of_get? he) h

/-- A search that goes from elements to what is directly inside them, and lists nothing where there
is no element. -/
structure Inward (t : Tree) (look : ElementId → SearchStep) : Prop where
  next : ∀ {x y}, y ∈ (look x).next → y ∈ t.children x
  listed : ∀ {x}, ¬ t.contains x = true → (look x).listed = []

theorem Inward.next_eq_nil (h : t.Inward look) (hx : ¬ t.contains x = true) :
    (look x).next = [] := by
  refine List.eq_nil_iff_forall_not_mem.2 fun y hy => ?_
  have hchild := h.next hy
  simp [children_eq_nil hx] at hchild

theorem inward_walkStep (t : Tree) : t.Inward t.walkStep where
  next := by
    intro x y hy
    rw [next_walkStep] at hy
    split at hy
    · exact hy
    · simp at hy
  listed := by
    intro x hx
    rw [listed_walkStep, if_neg hx]

theorem inward_templateStep (t : Tree) : t.Inward t.templateStep where
  next := by
    intro x y hy
    rw [templateStep] at hy
    split at hy
    · simp at hy
    · next e he =>
      split at hy
      · simp at hy
      · rwa [children_eq he]
  listed := by
    intro x hx
    rw [templateStep]
    split
    · rfl
    · next e he => exact absurd (contains_of_get? he) hx

namespace Forest

theorem length_ancestors_of_mem (hf : t.Forest) (hc : c ∈ t.children x) :
    (t.ancestors c).length = (t.ancestors x).length + 1 := by
  rw [hf.ancestors_step (hf.parent_of_mem hc), List.length_cons]

theorem length_ancestors_lt_capacity (hf : t.Forest) (hx : t.contains x = true) :
    (t.ancestors x).length < t.elements.capacity :=
  hf.length_lt_capacity (hf.ascends_ancestors x) hx

/-- What holds of an element if it holds of all that is directly inside it, holds of every element:
ways down end, since ways up are shorter than the arena. -/
theorem inward_induction (hf : t.Forest) {motive : ElementId → Prop}
    (h : ∀ x, (∀ c ∈ t.children x, motive c) → motive x) (x : ElementId) : motive x := by
  have hbelow : ∀ fuel x, t.elements.capacity ≤ fuel + (t.ancestors x).length → motive x := by
    intro fuel
    induction fuel with
    | zero =>
        intro x hx
        have hdead : ¬ t.contains x = true := by
          intro hlive
          have := hf.length_ancestors_lt_capacity hlive
          omega
        exact h x (by simp [children_eq_nil hdead])
    | succ fuel ih =>
        intro x hx
        refine h x fun c hc => ih c ?_
        have := hf.length_ancestors_of_mem hc
        omega
  exact hbelow _ x (Nat.le_add_right _ _)

theorem searchUpTo_succ (hf : t.Forest) (hin : t.Inward look) {fuel : Nat}
    (h : t.elements.capacity ≤ fuel + (t.ancestors x).length) :
    searchUpTo look (fuel + 1) x = searchUpTo look fuel x := by
  induction fuel generalizing x with
  | zero =>
      have hdead : ¬ t.contains x = true := by
        intro hlive
        have := hf.length_ancestors_lt_capacity hlive
        omega
      simp [searchUpTo, hin.listed hdead, hin.next_eq_nil hdead]
  | succ fuel ih =>
      rw [searchUpTo, searchUpTo]
      refine congrArg ((look x).listed ++ ·) (List.flatMap_congr fun c hc => ih ?_)
      have := hf.length_ancestors_of_mem (hin.next hc)
      omega

/-- A search through as many levels as the arena has places goes all the way down. -/
theorem search_eq (hf : t.Forest) (hin : t.Inward look) (x : ElementId) :
    searchUpTo look t.elements.capacity x =
      (look x).listed ++ (look x).next.flatMap (searchUpTo look t.elements.capacity) := by
  rw [← hf.searchUpTo_succ hin (Nat.le_add_right _ _), searchUpTo]

/-- The loop over a stack lists what the search lists. -/
theorem exhausts_onTop (hf : t.Forest) (hin : t.Inward look) (agenda : List ElementId) :
    Exhausts look onTop agenda (agenda.flatMap (searchUpTo look t.elements.capacity)) := by
  have hone : ∀ x, ∀ {agenda listed}, Exhausts look onTop agenda listed →
      Exhausts look onTop (x :: agenda) (searchUpTo look t.elements.capacity x ++ listed) := by
    intro x
    induction x using hf.inward_induction with
    | h x ih =>
        intro agenda listed hrest
        rw [hf.search_eq hin, List.append_assoc]
        exact .turn (.append_onTop _ (fun c hc => ih c (hin.next hc)) hrest)
  have hall := Exhausts.append_onTop agenda (fun c _ => hone c) .done
  rwa [List.append_nil, List.append_nil] at hall

end Forest

end Tree

end ReportModel
