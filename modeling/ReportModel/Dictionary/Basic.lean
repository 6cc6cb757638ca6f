import ReportModel.Value.Kind

/-!
# Dictionaries of element types

A dictionary defines the element types of a design: their properties, their slots, and the type each
one derives from. The lineage of a type is the chain of definitions it derives from, itself first;
it ends where a parent is not defined or has been met before. Lookups take the first answer of the
lineage; listings begin with the most general definition.
-/

namespace ReportModel

/-- Why a property cannot be set. -/
inductive PropertyError where
  | unknown (name : String)
  | invalid (name : String) (fault : ValueFault)
deriving DecidableEq, Repr

def PropertyError.message : PropertyError → String
  | .unknown name => "unknown property: " ++ name
  | .invalid name fault => "invalid value for " ++ name ++ ": " ++ fault.message

structure PropertyDef where
  name : String
  kind : Kind
  default : Option Value := none
  /-- Never settable. -/
  locked : Bool := false
  /-- Whether lock masks apply. -/
  lockable : Bool := true
  /-- Whether the cascade of styles applies. -/
  style : Bool := false
deriving DecidableEq, Repr

/-- The value to store when a property is set to a value. -/
def PropertyDef.validate (p : PropertyDef) (value : Value) : Except PropertyError Value :=
  (p.kind.normalize value).mapError (.invalid p.name)

/-- Where the names of the elements of a slot must differ. -/
inductive NameScope where
  /-- Nowhere. -/
  | none
  /-- Among the elements of the slot. -/
  | slot
  /-- Among the elements of one name space in the whole module. -/
  | module
deriving DecidableEq, Repr, Inhabited

/-- The definition of a slot. -/
structure SlotDef where
  name : String
  /-- The types whose kinds the slot accepts. -/
  allowed : List String
  multiple : Bool := true
  scope : NameScope := .module
deriving DecidableEq, Repr

/-- The definition of an element type. -/
structure TypeDef where
  name : String
  parent : Option String := none
  isAbstract : Bool := false
  nameRequired : Bool := false
  /-- The name space in which elements of the type are found by name. -/
  nameSpace : Option String := none
  /-- Whether elements of the type may include stylesheets. -/
  hostsSheets : Bool := false
  properties : List PropertyDef := []
  slots : List SlotDef := []
deriving DecidableEq, Repr

/-- The definitions of element types, one for each name. -/
structure Dictionary where
  types : List TypeDef
deriving DecidableEq, Repr

namespace Dictionary

def empty : Dictionary := ⟨[]⟩

def without (d : Dictionary) (name : String) : Dictionary :=
  ⟨d.types.filter (·.name ≠ name)⟩

/-- The dictionary with a definition in place of the one of the same name. -/
def register (d : Dictionary) (definition : TypeDef) : Dictionary :=
  ⟨definition :: (d.without definition.name).types⟩

def find? (d : Dictionary) (name : String) : Option TypeDef :=
  d.types.find? (·.name = name)

/-- The first `fuel` definitions of the lineage of a type. A definition that has been listed is no
longer there to be met again. -/
def lineageUpTo : Nat → Dictionary → String → List TypeDef
  | 0, _, _ => []
  | fuel + 1, d, typeName =>
    match d.find? typeName with
    | none => []
    | some definition =>
      definition ::
        match definition.parent with
        | none => []
        | some parent => lineageUpTo fuel (d.without definition.name) parent

/-- The definitions that a type derives from, its own first. None is listed twice, so there are no
more of them than in the dictionary. -/
def lineage (d : Dictionary) (typeName : String) : List TypeDef :=
  lineageUpTo d.types.length d typeName

/-- Whether a type is `base` or derives from it. -/
def isKindOf (d : Dictionary) (typeName base : String) : Bool :=
  (d.lineage typeName).any (·.name = base)

def property? (d : Dictionary) (typeName name : String) : Option PropertyDef :=
  (d.lineage typeName).findSome? fun definition => definition.properties.find? (·.name = name)

/-- A list of properties with one more, in the place of an earlier one of the same name. -/
def addProperty (properties : List PropertyDef) (p : PropertyDef) : List PropertyDef :=
  if properties.any (·.name = p.name) then
    properties.map fun q => if q.name = p.name then p else q
  else properties ++ [p]

/-- The properties of a type, the most general definition first, each name once. -/
def properties (d : Dictionary) (typeName : String) : List PropertyDef :=
  ((d.lineage typeName).reverse.flatMap (·.properties)).foldl addProperty []

/-- The properties of a type that take part in the cascade of styles. -/
def styleProperties (d : Dictionary) (typeName : String) : List PropertyDef :=
  (d.properties typeName).filter (·.style)

def slot? (d : Dictionary) (typeName name : String) : Option SlotDef :=
  (d.lineage typeName).findSome? fun definition => definition.slots.find? (·.name = name)

/-- The slots of a type, the most general definition first. -/
def slots (d : Dictionary) (typeName : String) : List SlotDef :=
  (d.lineage typeName).reverse.flatMap (·.slots)

def nameSpace (d : Dictionary) (typeName : String) : Option String :=
  (d.lineage typeName).findSome? (·.nameSpace)

def nameRequired (d : Dictionary) (typeName : String) : Bool :=
  (d.lineage typeName).any (·.nameRequired)

def hostsSheets (d : Dictionary) (typeName : String) : Bool :=
  (d.lineage typeName).any (·.hostsSheets)

/-- Whether elements of a type can be created. -/
def isConcrete (d : Dictionary) (typeName : String) : Bool :=
  (d.find? typeName).any fun definition => !definition.isAbstract

end Dictionary

end ReportModel
