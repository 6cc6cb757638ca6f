import Mathlib.Data.List.Forall2
import ReportModel.Css.Reading

/-!
# The grammar of stylesheets

Which lexemes make a stylesheet, and the rules that they stand for. A qualifier could go on with the
compound in front of it or begin the next one: it goes on with the compound exactly if it is joined
to the lexeme in front of it.
-/

namespace ReportModel.Css

/-- A class, an id or a pseudo-class. A hexadecimal colour is an id. -/
inductive IsQualifier : List Lexeme → Component → Prop
  | ofClass {dot name : Lexeme} (hdot : dot.token = .dot) (hname : name.token = .ident) :
    IsQualifier [dot, name] (.ofClass name.text)
  | ofId {hash name : Lexeme} (hhash : hash.token = .hash) (hname : name.token = .ident) :
    IsQualifier [hash, name] (.ofId name.text)
  | ofColor {t : Lexeme} (ht : t.token = .hexColor) : IsQualifier [t] (.ofId t.tailText)
  | ofPseudo {t : Lexeme} (ht : t.token = .pseudoClass) : IsQualifier [t] (.ofPseudo t.tailText)

def startsQualifier : Token → Bool
  | .dot | .hash | .hexColor | .pseudoClass => true
  | _ => false

/-- Some lexemes begin as a qualifier that is joined to what is in front of them. -/
def StartsJoined (ts : List Lexeme) : Prop :=
  ∃ t ∈ ts.head?, t.joined = true ∧ startsQualifier t.token = true

/-- A type, `*` or a qualifier. -/
inductive IsHead : List Lexeme → Component → Prop
  | ofType {t : Lexeme} (ht : t.token = .ident) : IsHead [t] (.ofType t.text)
  | universal {t : Lexeme} (ht : t.token = .star) : IsHead [t] .universal
  | qualifier {ts : List Lexeme} {c : Component} (h : IsQualifier ts c) : IsHead ts c

/-- Qualifiers each of which is joined to what is in front of it. -/
inductive IsQualifiers : List Lexeme → List Component → Prop
  | nil : IsQualifiers [] []
  | cons {ts us : List Lexeme} {c : Component} {cs : List Component} (h : IsQualifier ts c)
    (hjoined : StartsJoined ts) (hmore : IsQualifiers us cs) : IsQualifiers (ts ++ us) (c :: cs)

/-- A head with the qualifiers joined to it. -/
inductive IsCompound : List Lexeme → Compound → Prop
  | mk {ts us : List Lexeme} {c : Component} {cs : List Component} (hhead : IsHead ts c)
    (hmore : IsQualifiers us cs) : IsCompound (ts ++ us) (c :: cs)

/-- Compounds, each after the first with or without a `>` in front of it. -/
inductive IsSelector : List Lexeme → Selector → Prop
  | compound {ts : List Lexeme} {c : Compound} (h : IsCompound ts c) : IsSelector ts (.compound c)
  | child {ts us : List Lexeme} {gt : Lexeme} {outer : Selector} {c : Compound}
    (h : IsSelector ts outer) (hgt : gt.token = .greaterThan) (hc : IsCompound us c) :
    IsSelector (ts ++ gt :: us) (.within outer .child c)
  | descendant {ts us : List Lexeme} {outer : Selector} {c : Compound} (h : IsSelector ts outer)
    (hc : IsCompound us c) (hgap : ¬ StartsJoined us) :
    IsSelector (ts ++ us) (.within outer .descendant c)

inductive IsSelectors : List Lexeme → List Selector → Prop
  | single {ts : List Lexeme} {s : Selector} (h : IsSelector ts s) : IsSelectors ts [s]
  | cons {ts us : List Lexeme} {comma : Lexeme} {s : Selector} {ss : List Selector}
    (h : IsSelector ts s) (hcomma : comma.token = .comma) (hmore : IsSelectors us ss) :
    IsSelectors (ts ++ comma :: us) (s :: ss)

/-- A lexeme is an item of a value. Numbers are of 32 bits. -/
inductive Denotes : Lexeme → Term → Prop
  | number {t : Lexeme} {x : Number} (ht : t.token = .number)
    (hx : Format.single.readChars t.chars = some x) : Denotes t (.number x)
  | dimension {t : Lexeme} {measure units : List Char} {x : Number} (ht : t.token = .dimension)
    (hunits : units ∈ Pattern.units) (htext : t.chars = measure ++ units)
    (hx : Format.single.readChars measure = some x) :
    Denotes t (.dimension x (String.ofList units))
  | ident {t : Lexeme} (ht : t.token = .ident) : Denotes t (.ident t.text)
  | color {t : Lexeme} (ht : t.token = .hexColor) : Denotes t (.color t.tailText)
  | string {t : Lexeme} (ht : t.token = .doubleQuoted ∨ t.token = .singleQuoted) :
    Denotes t (.string (String.ofList (t.chars.drop 1).dropLast))
  | comma {t : Lexeme} (ht : t.token = .comma) : Denotes t .comma

/-- The name of a property with a colon, or with a pseudo-class that gives the first item. -/
inductive IsOpening : List Lexeme → String → List Term → Prop
  | colon {name colon : Lexeme} (hname : name.token = .ident) (hcolon : colon.token = .colon) :
    IsOpening [name, colon] name.text []
  | pseudo {name t : Lexeme} (hname : name.token = .ident) (ht : t.token = .pseudoClass) :
    IsOpening [name, t] name.text [.ident t.tailText]

/-- The end of a declaration, and whether it is important. -/
inductive IsClosing : List Lexeme → Bool → Prop
  | important {mark : Lexeme} (hmark : mark.token = .important) : IsClosing [mark] true
  | importantSemicolon {mark semicolon : Lexeme} (hmark : mark.token = .important)
    (hsemicolon : semicolon.token = .semicolon) : IsClosing [mark, semicolon] true
  | semicolon {semicolon : Lexeme} (hsemicolon : semicolon.token = .semicolon) :
    IsClosing [semicolon] false

/-- The content of a block up to its closing brace: semicolons and declarations, the last of which
may be closed by the brace. -/
inductive IsBlock : List Lexeme → List Declaration → Prop
  | nil : IsBlock [] []
  | semicolon {ts : List Lexeme} {semicolon : Lexeme} {ds : List Declaration}
    (hsemicolon : semicolon.token = .semicolon) (hmore : IsBlock ts ds) :
    IsBlock (semicolon :: ts) ds
  | declaration {ts vs ends us : List Lexeme} {property : String} {first terms : List Term}
    {important : Bool} {ds : List Declaration} (hopening : IsOpening ts property first)
    (hterms : List.Forall₂ Denotes vs terms) (hclosing : IsClosing ends important)
    (hmore : IsBlock us ds) :
    IsBlock (ts ++ vs ++ ends ++ us) (⟨property, first ++ terms, important⟩ :: ds)
  | last {ts vs : List Lexeme} {property : String} {first terms : List Term}
    (hopening : IsOpening ts property first) (hterms : List.Forall₂ Denotes vs terms) :
    IsBlock (ts ++ vs) [⟨property, first ++ terms, false⟩]

inductive IsRule : List Lexeme → Rule → Prop
  | mk {ts us : List Lexeme} {opened closed : Lexeme} {ss : List Selector} {ds : List Declaration}
    (hselectors : IsSelectors ts ss) (hopened : opened.token = .braceOpen)
    (hblock : IsBlock us ds) (hclosed : closed.token = .braceClose) :
    IsRule (ts ++ opened :: us ++ [closed]) ⟨ss, ds⟩

inductive IsSheet : List Lexeme → List Rule → Prop
  | nil : IsSheet [] []
  | cons {ts us : List Lexeme} {rule : Rule} {rules : List Rule} (h : IsRule ts rule)
    (hmore : IsSheet us rules) : IsSheet (ts ++ us) (rule :: rules)

end ReportModel.Css
