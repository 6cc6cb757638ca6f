import ReportModel.Document.Bases

/-!
# Access rules

An element that switches access control on has its own rule. Any other has the rule of the nearest
element around it that does, provided that one passes its rule down; otherwise access is open. All
flags and rules are read through the chain of bases.
-/

namespace ReportModel

structure AccessRule where
  expression : String
  origin : ElementId
deriving DecidableEq, Repr

namespace Document

variable (d : Document)

def flag (id : ElementId) (property : String) : Bool :=
  ((d.virtualValue? id property).bind Value.asBool).getD false

/-- The rule that an element states. -/
def statedRule? (id : ElementId) : Option AccessRule :=
  ((d.virtualValue? id Vocabulary.accessRuleProperty).bind Value.asText).map (⟨·, id⟩)

/-- The rule in force for an element. -/
def accessRule? (id : ElementId) : Option AccessRule :=
  if d.flag id Vocabulary.enableAccessProperty then d.statedRule? id
  else
    match (d.tree.ancestors id).find? (d.flag · Vocabulary.enableAccessProperty) with
    | some outer =>
      if d.flag outer Vocabulary.cascadeAccessProperty then d.statedRule? outer else none
    | none => none

end Document

end ReportModel
