import ReportModel.Css.PropertyName
import ReportModel.Css.Reading
import ReportModel.Css.Specificity
import ReportModel.Dictionary.Vocabulary

/-!
# Compiled stylesheets

Each selector of each rule gives a style under the name of the selector, which holds the declared
values as property values of the model. Styles of one name merge: a later value replaces an earlier
one, and the rank is the greatest. What cannot be converted is listed with the reason.
-/

namespace ReportModel.Css

/-- Property values under the name of a selector. -/
structure Style where
  name : String
  selector : Selector
  properties : List (String × Value)
  rank : Specificity
deriving DecidableEq, Repr

namespace Style

def property? (style : Style) (name : String) : Option Value :=
  (style.properties.find? (·.1 = name)).map (·.2)

/-- A list of values with one more, in the place of the first of the same property. -/
def setValue (entry : String × Value) : List (String × Value) → List (String × Value)
  | [] => [entry]
  | first :: rest =>
    if first.1 = entry.1 then (first.1, entry.2) :: rest else first :: setValue entry rest

/-- The style with the values and the rank of one more rule. -/
def merge (style : Style) (properties : List (String × Value)) (rank : Specificity) : Style :=
  { style with
    properties := properties.foldl (fun all entry => setValue entry all) style.properties
    rank := style.rank.max rank }

end Style

/-- A declaration that gives a style no value. -/
structure Unsupported where
  style : String
  property : String
  reason : PropertyError
deriving DecidableEq, Repr

/-- A stylesheet in the terms of the model. -/
structure StyleSheet where
  fileName : String
  styles : List Style
  unsupported : List Unsupported
deriving DecidableEq, Repr

def Declaration.convert (dictionary : Dictionary) (declaration : Declaration) :
    Except PropertyError (String × Value) :=
  let name := modelName declaration.property
  match dictionary.property? Vocabulary.styleType name with
  | none => .error (.unknown declaration.property)
  | some definition =>
    if !definition.style then .error (.unknown declaration.property)
    else if declaration.values.isEmpty then .error (.invalid name .emptyValue)
    else (definition.validate (.string declaration.valueText)).map (name, ·)

namespace Rule

/-- Whether a rule counts as important: it does as a whole if one of its declarations does. -/
def important (rule : Rule) : Bool :=
  rule.declarations.any (·.important)

def values (dictionary : Dictionary) (rule : Rule) : List (String × Value) :=
  rule.declarations.filterMap fun declaration => (declaration.convert dictionary).toOption

/-- The declarations of a rule that set no value, for the style of a name. -/
def refusals (dictionary : Dictionary) (rule : Rule) (style : String) : List Unsupported :=
  rule.declarations.filterMap fun declaration =>
    match declaration.convert dictionary with
    | .ok _ => none
    | .error reason => some ⟨style, declaration.property, reason⟩

end Rule

/-- The styles so far with the values of one selector of a rule, merged into the style of the same
name if there is one. -/
def addStyle (new : Style) : List Style → List Style
  | [] => [new]
  | style :: rest =>
    if style.name = new.name then style.merge new.properties new.rank :: rest
    else style :: addStyle new rest

namespace StyleSheet

/-- The style that one selector of a rule gives, if it can be ranked. -/
def styleOf (dictionary : Dictionary) (rule : Rule) (order : Nat) (selector : Selector) :
    Except Overflow Style := do
  let rank ← Specificity.ofSelector selector (UInt32.ofNat order) rule.important
  return { name := selector.styleName, selector, properties := rule.values dictionary, rank }

/-- The stylesheet of a list of rules, if all their selectors can be ranked. -/
def compile (fileName : String) (dictionary : Dictionary) (rules : List Rule) :
    Except Overflow StyleSheet := do
  let styles ← (rules.zipIdx.flatMap fun (rule, order) =>
      rule.selectors.map (styleOf dictionary rule order)).foldlM
    (fun all new => return addStyle (← new) all) []
  return {
    fileName
    styles
    unsupported := rules.flatMap fun rule =>
      rule.selectors.flatMap fun selector => rule.refusals dictionary selector.styleName }

/-- Why a text gives no stylesheet. -/
inductive ReadError where
  | parse (error : ParseError)
  | overflow
deriving DecidableEq, Repr

def read (fileName : String) (dictionary : Dictionary) (text : String) :
    Except ReadError StyleSheet := do
  let rules ← (readRules text).mapError .parse
  (compile fileName dictionary rules).mapError fun _ => .overflow

def style? (sheet : StyleSheet) (name : String) : Option Style :=
  sheet.styles.find? (·.name = name)

def provides (sheet : StyleSheet) (name : String) : Bool :=
  (sheet.style? name).isSome

end StyleSheet

/-- How a stylesheet is included: the name of its file, and the link to write instead of it. -/
structure Link where
  fileName : String
  externalUri : Option String := none
  useExternal : Bool := false
deriving DecidableEq, Repr

/-- A stylesheet included by an element. -/
structure Inclusion where
  link : Link
  sheet : StyleSheet
deriving DecidableEq, Repr

def Inclusion.fileName (inclusion : Inclusion) : String :=
  inclusion.link.fileName

end ReportModel.Css
