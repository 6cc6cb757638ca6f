import ReportModel.Document.Basic

/-!
# Bases

An element may have a base, of its own type and in its own module or in a library, from which it
takes the values it does not have itself. The chain of bases is followed up to the depth limit of
the document. A chain is refused if it comes back to an element or is longer than that.
-/

namespace ReportModel

namespace Document

variable (d : Document)

/-- The element that a reference finds for an element of a type. -/
def lookup (typeName : String) (reference : Reference) : Option OwnedElement :=
  (d.owner? reference.library).bind fun owner =>
    (d.tree.dictionary.nameSpace typeName).bind fun space =>
      (owner.tree.find space reference.name).map fun id => ⟨owner, id⟩

/-- The base of an element, if its reference finds an element of the same type. -/
def base? (id : ElementId) : Option OwnedElement :=
  (d.get? id).bind fun e =>
    (e.base.bind (d.lookup e.typeName)).filter fun found =>
      found.get?.any (·.typeName = e.typeName)

end Document

namespace OwnedElement

/-- The base of an element in its own document. -/
def base? (r : OwnedElement) : Option OwnedElement :=
  r.document.base? r.id

/-- The next `fuel` bases of an element, as far as they are none of those seen. -/
def basesUpTo : Nat → List OwnedElement → OwnedElement → List OwnedElement
  | 0, _, _ => []
  | fuel + 1, seen, r =>
    match r.base? with
    | none => []
    | some base =>
      if seen.any base.isSame then [] else base :: basesUpTo fuel (base :: seen) base

/-- Whether a chain that goes on with some base comes back to an element that was seen, or has more
than `fuel` bases. -/
def runsOn : Nat → List OwnedElement → Option OwnedElement → Bool
  | _, _, none => false
  | 0, _, some _ => true
  | fuel + 1, seen, some base => seen.any base.isSame || runsOn fuel (base :: seen) base.base?

/-- Whether a chain that goes on with some element comes to `self`, or has more than `fuel`
elements. -/
def comesTo (self : OwnedElement) : Nat → Option OwnedElement → Bool
  | _, none => false
  | 0, some _ => true
  | fuel + 1, some r => r.isSame self || comesTo self fuel r.base?

end OwnedElement

namespace Document

variable (d : Document)

/-- An element followed by its bases, within the depth limit. -/
def chain (id : ElementId) : List OwnedElement :=
  let self : OwnedElement := ⟨d, id⟩
  self :: OwnedElement.basesUpTo d.depthLimit [self] self

/-- The first attached element whose chain of bases is refused, by its reference. -/
def runawayReference? : Option Reference :=
  d.tree.attached.findSome? fun id =>
    (d.get? id).bind fun e => e.base.filter fun _ =>
      OwnedElement.runsOn d.depthLimit [⟨d, id⟩] (d.base? id)

def wouldRunOn (id : ElementId) (base : OwnedElement) : Bool :=
  OwnedElement.comesTo ⟨d, id⟩ d.depthLimit (some base)

/-- The value of a property of an element: its own, else that of the nearest base that has one, else
the default. -/
def virtualValue? (id : ElementId) (property : String) : Option Value :=
  ((d.chain id).findSome? fun r => r.get?.bind (·.value? property)) <|> d.default? id property

/-- Whether a lock mask of an element or one of its bases covers a property. -/
def isLocked (id : ElementId) (property : String) : Bool :=
  (d.chain id).any fun r => r.get?.any (·.mask? property = some .lock)

/-- The theme that the root names, in this module or in a library. -/
def theme? : Option OwnedElement :=
  ((d.get? d.root).bind (·.text? Vocabulary.themeProperty)).bind fun text =>
    let reference := Reference.read text
    (d.owner? reference.library).bind fun owner =>
      (owner.tree.find Vocabulary.themeSpace reference.name).map fun id => ⟨owner, id⟩

end Document

end ReportModel
