import Mathlib.Data.List.ProdSigma
import ReportModel.Proofs.Css.StyleNames
import ReportModel.Proofs.Css.Values

/-!
# What a compiled stylesheet keeps

Compiling loses nothing. Each name of a selector becomes one style, in the order in which the names
first occur; each declaration gives a value to the style of each selector of its rule, or is listed
with the reason why it does not; and all values that are stored are the normal ones.
-/

namespace ReportModel

def Dictionary.IsStyleValue (d : Dictionary) (property : String) (v : Value) : Prop :=
  ∃ definition, d.property? Vocabulary.styleType property = some definition ∧
    definition.style = true ∧ definition.validate v = .ok v

namespace Css

variable {dictionary : Dictionary} {rules : List Rule}

/-! ## Names -/

/-- The selectors of some rules with the declarations that apply to them, in the order of the
text. -/
def declared (rules : List Rule) : List (Selector × Declaration) :=
  rules.flatMap fun rule => rule.selectors.product rule.declarations

/-- What is listed of a declaration that gives the style of a selector no value. -/
def Declaration.refusal? (dictionary : Dictionary) (s : Selector) (declaration : Declaration) :
    Option Unsupported :=
  match declaration.convert dictionary with
  | .ok _ => none
  | .error reason => some ⟨s.styleName, declaration.property, reason⟩

namespace StyleSheet

/-- All that some rules declare is in a sheet, and the sheet is in normal form. -/
structure Keeps (dictionary : Dictionary) (rules : List Rule) (sheet : StyleSheet) : Prop where
  /-- There is one style for each name of a selector, in the order in which the names occur. -/
  named : sheet.styles.map (·.name) =
    (rules.flatMap fun rule => rule.selectors.map (·.styleName)).eraseDups
  distinct : (sheet.styles.map (·.name)).Nodup
  normal : ∀ style ∈ sheet.styles, ∀ entry ∈ style.properties,
    dictionary.IsStyleValue entry.1 entry.2
  /-- No declaration is lost. -/
  covers : ∀ rule ∈ rules, ∀ s ∈ rule.selectors, ∀ declaration ∈ rule.declarations,
    (∃ entry style, declaration.convert dictionary = .ok entry ∧
      sheet.style? s.styleName = some style ∧ (style.property? entry.1).isSome = true) ∨
    ∃ reason, declaration.convert dictionary = .error reason ∧
      ⟨s.styleName, declaration.property, reason⟩ ∈ sheet.unsupported
  /-- What is listed as unsupported is in the order of the text, and it is nothing else. -/
  listed : sheet.unsupported =
    (declared rules).filterMap fun (s, declaration) => declaration.refusal? dictionary s

variable {fileName : String} {sheet : StyleSheet}

-- a declaration is listed once for each selector of its rule
example : (compile "report.css" Vocabulary.reports
    [⟨[.compound [.ofType "Label"], .compound [.ofClass "total"]],
      [⟨"margin", [.ident "auto"], false⟩,
        ⟨"color", [.ident "red"], false⟩]⟩]).map (·.unsupported) =
    .ok [⟨"Label", "margin", .unknown "margin"⟩, ⟨"total", "margin", .unknown "margin"⟩] := by
  decide +kernel

end StyleSheet

end Css

end ReportModel
