import ReportModel.Element

/-!
# Trees

The tree of a module is an arena of elements with a root. An element is attached if its containers
lead up to the root; other elements of the arena are detached, but stay available. The name index
finds the attached elements in slots whose names are unique in the module, by the name space of
their type and by their name.
-/

namespace ReportModel

/-- A key of the name index. -/
structure NameKey where
  space : String
  name : String
deriving DecidableEq, Repr

namespace NameKey

/-- Whether one key comes before another, by name space and then by name. -/
def before (a b : NameKey) : Bool :=
  Ordered.before a.space b.space || (a.space = b.space && Ordered.before a.name b.name)

instance : Ordered NameKey where
  before := before
  irrefl a := by simp [before, Ordered.irrefl]
  trans a b c hab hbc := by
    simp only [before, Bool.or_eq_true, Bool.and_eq_true, decide_eq_true_eq] at *
    rcases hab with hab | ⟨hs, hab⟩
    · rcases hbc with hbc | ⟨hs, hbc⟩
      · exact Or.inl (Ordered.trans _ _ _ hab hbc)
      · exact Or.inl (hs ▸ hab)
    · rcases hbc with hbc | ⟨hs', hbc⟩
      · exact Or.inl (hs ▸ hbc)
      · exact Or.inr ⟨hs.trans hs', Ordered.trans _ _ _ hab hbc⟩
  connected a b hab hba := by
    simp only [before, Bool.or_eq_false_iff, Bool.and_eq_false_imp, decide_eq_true_eq] at hab hba
    have hs : a.space = b.space := Ordered.connected _ _ hab.1 hba.1
    have hn : a.name = b.name := Ordered.connected _ _ (hab.2 hs) (hba.2 hs.symm)
    cases a
    cases b
    simp_all

end NameKey

structure Tree where
  dictionary : Dictionary
  elements : Arena Element
  root : ElementId
  names : SortedMap NameKey ElementId
deriving DecidableEq

namespace Tree

def new (dictionary : Dictionary) (rootType : String) : Tree where
  dictionary := dictionary
  elements := Arena.empty.insert (Element.create dictionary rootType none)
  root := Arena.nextId (Arena.empty : Arena Element)
  names := .empty

variable (t : Tree)

def get? (id : ElementId) : Option Element :=
  t.elements.get? id

def contains (id : ElementId) : Bool :=
  t.elements.contains id

def size : Nat :=
  t.elements.size

def modify (id : ElementId) (f : Element → Element) : Tree :=
  { t with elements := t.elements.modify id f }

/-- The tree with one more, detached element, under the next id of the arena. -/
def create (typeName : String) (name : Option String) : Tree :=
  { t with elements := t.elements.insert (Element.create t.dictionary typeName name) }

def parent (id : ElementId) : Option ElementId :=
  (t.get? id).bind fun e => e.place.map (·.container)

def ancestorsUpTo : Nat → ElementId → List ElementId
  | 0, _ => []
  | fuel + 1, id =>
    match t.parent id with
    | none => []
    | some p => p :: ancestorsUpTo fuel p

/-- The containers around an element, from the inside out. There are no more of them than places in
the arena, since no element lies in itself. -/
def ancestors (id : ElementId) : List ElementId :=
  t.ancestorsUpTo t.elements.capacity id

/-- Whether an element is the root or lies in it. -/
def isAttached (id : ElementId) : Bool :=
  t.contains id && (id = t.root || (t.ancestors id).getLast? = some t.root)

/-- Whether an element is another one or lies in it. -/
def isWithin (id outer : ElementId) : Bool :=
  id = outer || (t.ancestors id).contains outer

/-- The contents of a slot, none if there is no such slot. -/
def contents (id : ElementId) (slot : String) : List ElementId :=
  ((t.get? id).bind (·.slot? slot)).getD []

def children (id : ElementId) : List ElementId :=
  ((t.get? id).map Element.children).getD []

/-- The elements of `fuel` levels from an element on, each followed by what is inside it. -/
def walkUpTo : Nat → ElementId → List ElementId
  | 0, _ => []
  | fuel + 1, id =>
    if t.contains id then id :: (t.children id).flatMap (walkUpTo fuel) else []

/-- An element and all elements inside it, each followed by what is inside it. An element inside
another is no more levels away than the arena has places. -/
def walk (id : ElementId) : List ElementId :=
  t.walkUpTo t.elements.capacity id

def levelsUpTo : Nat → List ElementId → List ElementId
  | 0, _ => []
  | fuel + 1, level =>
    let live := level.filter t.contains
    live ++ levelsUpTo fuel (live.flatMap t.children)

/-- An element and all elements inside it, level by level. -/
def walkLevels (id : ElementId) : List ElementId :=
  t.levelsUpTo t.elements.capacity [id]

def attached : List ElementId :=
  t.walk t.root

end Tree

end ReportModel
