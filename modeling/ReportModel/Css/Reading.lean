import ReportModel.Css.Comment
import ReportModel.Css.Lexeme
import ReportModel.Css.Rule

/-!
# Reading rules

Rules are read from lexemes in one pass. A reader that succeeds always takes at least one lexeme, or
leaves what it was given; every repetition therefore ends.

A compound goes on as long as its conditions follow without a gap. A property may be followed by a
pseudo-class in place of a colon and a name, since that is how they are cut when no blank stands
between them.
-/

namespace ReportModel.Css

/-- What a reader asks for. -/
inductive Wanted where
  | token (token : Token)
  | className
  | idName
  | propertyName
deriving DecidableEq, Repr

def Wanted.text : Wanted → String
  | .token sort => sort.name
  | .className => "class name after '.'"
  | .idName => "id name after '#'"
  | .propertyName => "property name"

/-- Why a lexeme cannot stand where it does. -/
inductive ReadFault where
  | expected (wanted : Wanted) (got : Lexeme)
  | noSelector
  | notValue (got : Lexeme)
  | badNumber (text : String)
  | badDimension (text : String)
  | badMeasure (text : String)
deriving DecidableEq, Repr

/-- A lexeme as messages name it. -/
def Lexeme.describe (lexeme : Lexeme) : String :=
  lexeme.token.name ++ " '" ++ lexeme.text ++ "'"

def ReadFault.message : ReadFault → String
  | .expected wanted got => "expected " ++ wanted.text ++ ", got " ++ got.describe
  | .noSelector => "expected selector part"
  | .notValue got => "unexpected token in declaration value: " ++ got.describe
  | .badNumber text => "invalid number: " ++ text
  | .badDimension text => "invalid dimension: " ++ text
  | .badMeasure text => "invalid number in dimension: " ++ text

/-- Why a stylesheet cannot be read. A position counts the lexemes in front. -/
inductive ParseError where
  | unexpected (position : Nat) (fault : ReadFault)
  | ended (wanted : Wanted)
deriving DecidableEq, Repr

def ParseError.message : ParseError → String
  | .unexpected position fault =>
    "unexpected token at position " ++ toString position ++ ": " ++ fault.message
  | .ended wanted => "unexpected end of input: expected " ++ wanted.text

/-- Why a reader stops: a fault with the number of lexemes from there on, or the end of the text. -/
inductive Stop where
  | fault (left : Nat) (fault : ReadFault)
  | ended (wanted : Wanted)
deriving DecidableEq, Repr

/-- The error that a stop stands for, in a text of `total` lexemes. -/
def Stop.toError (total : Nat) : Stop → ParseError
  | .fault left cause => .unexpected (total - left) cause
  | .ended wanted => .ended wanted

/-- What a reader has taken from the front of some lexemes, at least one of them, and the rest. -/
structure Taken (α : Type) (source : List Lexeme) where
  value : α
  rest : List Lexeme
  shorter : rest.length < source.length

/-- What a reader has taken from the front of some lexemes, perhaps nothing, and the rest. -/
structure Passed (α : Type) (source : List Lexeme) where
  value : α
  rest : List Lexeme
  notLonger : rest.length ≤ source.length

def takeAs (wanted : Wanted) (token : Token) :
    (ts : List Lexeme) → Except Stop (Taken Lexeme ts)
  | [] => .error (.ended wanted)
  | t :: rest =>
    if t.token = token then .ok ⟨t, rest, Nat.lt_succ_self _⟩
    else .error (.fault (rest.length + 1) (.expected wanted t))

def take (token : Token) (ts : List Lexeme) : Except Stop (Taken Lexeme ts) :=
  takeAs (.token token) token ts

def takeName (wanted : Wanted) (ts : List Lexeme) : Except Stop (Taken Lexeme ts) :=
  takeAs wanted .ident ts

def Lexeme.tailText (lexeme : Lexeme) : String :=
  String.ofList (lexeme.chars.drop 1)

/-- Takes a class, id or pseudo-class, if there is one. A hexadecimal colour is an id here. -/
def takeQualifier? : (ts : List Lexeme) → Except Stop (Option (Taken Component ts))
  | [] => .ok none
  | t :: rest =>
    match t.token with
    | .dot => do
      let name ← takeName .className rest
      return some ⟨.ofClass name.value.text, name.rest, Nat.lt_succ_of_lt name.shorter⟩
    | .hash => do
      let name ← takeName .idName rest
      return some ⟨.ofId name.value.text, name.rest, Nat.lt_succ_of_lt name.shorter⟩
    | .hexColor => .ok (some ⟨.ofId t.tailText, rest, Nat.lt_succ_self _⟩)
    | .pseudoClass => .ok (some ⟨.ofPseudo t.tailText, rest, Nat.lt_succ_self _⟩)
    | _ => .ok none

/-- Takes the qualifiers that follow without a gap. -/
def takeQualifiers (ts : List Lexeme) : Except Stop (Passed (List Component) ts) :=
  if ts.head?.any (·.joined) then do
    match ← takeQualifier? ts with
    | none => return ⟨[], ts, Nat.le_refl _⟩
    | some first =>
      have := first.shorter
      let more ← takeQualifiers first.rest
      return ⟨first.value :: more.value, more.rest,
        Nat.le_of_lt (Nat.lt_of_le_of_lt more.notLonger first.shorter)⟩
  else .ok ⟨[], ts, Nat.le_refl _⟩
termination_by ts.length

def takeHead : (ts : List Lexeme) → Except Stop (Taken Component ts)
  | [] => .error (.fault 0 .noSelector)
  | t :: rest =>
    match t.token with
    | .ident => .ok ⟨.ofType t.text, rest, Nat.lt_succ_self _⟩
    | .star => .ok ⟨.universal, rest, Nat.lt_succ_self _⟩
    | _ => do
      match ← takeQualifier? (t :: rest) with
      | some first => return first
      | none => throw (.fault (rest.length + 1) .noSelector)

def takeCompound (ts : List Lexeme) : Except Stop (Taken Compound ts) := do
  let first ← takeHead ts
  let more ← takeQualifiers first.rest
  return ⟨first.value :: more.value, more.rest, Nat.lt_of_le_of_lt more.notLonger first.shorter⟩

def startsCompound : Token → Bool
  | .ident | .hash | .hexColor | .dot | .star | .pseudoClass => true
  | _ => false

def takeSteps (outer : Selector) (ts : List Lexeme) : Except Stop (Passed Selector ts) :=
  match ts with
  | [] => .ok ⟨outer, [], Nat.le_refl _⟩
  | t :: rest =>
    if t.token = .greaterThan then do
      let inner ← takeCompound rest
      have := inner.shorter
      let whole ← takeSteps (.within outer .child inner.value) inner.rest
      return ⟨whole.value, whole.rest,
        Nat.le_succ_of_le (Nat.le_of_lt (Nat.lt_of_le_of_lt whole.notLonger inner.shorter))⟩
    else if startsCompound t.token then do
      let inner ← takeCompound (t :: rest)
      have := inner.shorter
      let whole ← takeSteps (.within outer .descendant inner.value) inner.rest
      return ⟨whole.value, whole.rest,
        Nat.le_of_lt (Nat.lt_of_le_of_lt whole.notLonger inner.shorter)⟩
    else .ok ⟨outer, t :: rest, Nat.le_refl _⟩
termination_by ts.length
decreasing_by all_goals simp only [List.length_cons] at *; omega

def takeSelector (ts : List Lexeme) : Except Stop (Taken Selector ts) := do
  let first ← takeCompound ts
  let whole ← takeSteps (.compound first.value) first.rest
  return ⟨whole.value, whole.rest, Nat.lt_of_le_of_lt whole.notLonger first.shorter⟩

def takeSelectors (ts : List Lexeme) : Except Stop (Taken (List Selector) ts) := do
  let first ← takeSelector ts
  match hrest : first.rest with
  | [] => return ⟨[first.value], [], hrest ▸ first.shorter⟩
  | t :: rest =>
    if t.token = .comma then
      have hlt : rest.length < ts.length := by
        have := first.shorter
        rw [hrest, List.length_cons] at this
        omega
      let more ← takeSelectors rest
      return ⟨first.value :: more.value, more.rest, Nat.lt_trans more.shorter hlt⟩
    else return ⟨[first.value], t :: rest, hrest ▸ first.shorter⟩
termination_by ts.length

def readMeasure (fault : ReadFault) (cs : List Char) : Except ReadFault Number :=
  match Format.single.readChars cs with
  | some x => .ok x
  | none => .error fault

def readTerm (t : Lexeme) : Except ReadFault Term :=
  match t.token with
  | .number => do
    let x ← readMeasure (.badNumber t.text) t.chars
    return .number x
  | .dimension => do
    let (measure, units) := Dimension.splitMeasure t.chars
    if measure.isEmpty || units.isEmpty then
      throw (.badDimension t.text)
    let x ← readMeasure (.badMeasure (String.ofList measure)) measure
    return .dimension x (String.ofList units)
  | .ident => .ok (.ident t.text)
  | .hexColor => .ok (.color t.tailText)
  | .doubleQuoted | .singleQuoted => .ok (.string (String.ofList (t.chars.drop 1).dropLast))
  | .comma => .ok .comma
  | _ => .error (.notValue t)

/-- Takes the items of a value up to a semicolon, a closing brace or the end, or up to and with the
mark of importance, which is the second answer. -/
def takeTerms : (ts : List Lexeme) → Except Stop (Passed (List Term × Bool) ts)
  | [] => .ok ⟨([], false), [], Nat.le_refl _⟩
  | t :: rest =>
    match t.token with
    | .semicolon | .braceClose => .ok ⟨([], false), t :: rest, Nat.le_refl _⟩
    | .important => .ok ⟨([], true), rest, Nat.le_succ _⟩
    | _ => do
      let first ← (readTerm t).mapError fun fault => .fault (rest.length + 1) fault
      let more ← takeTerms rest
      return ⟨(first :: more.value.1, more.value.2), more.rest, Nat.le_succ_of_le more.notLonger⟩

/-- Takes the colon after a property; a pseudo-class in its place gives the first item. -/
def takeColon : (ts : List Lexeme) → Except Stop (Taken (List Term) ts)
  | [] => .error (.ended (.token .colon))
  | t :: rest =>
    if t.token = .pseudoClass then .ok ⟨[.ident t.tailText], rest, Nat.lt_succ_self _⟩
    else do
      let colon ← take .colon (t :: rest)
      return ⟨[], colon.rest, colon.shorter⟩

def passSemicolon : (ts : List Lexeme) → Passed Unit ts
  | [] => ⟨(), [], Nat.le_refl _⟩
  | t :: rest =>
    if t.token = .semicolon then ⟨(), rest, Nat.le_succ _⟩ else ⟨(), t :: rest, Nat.le_refl _⟩

def takeDeclaration (ts : List Lexeme) : Except Stop (Taken Declaration ts) := do
  let property ← takeName .propertyName ts
  let first ← takeColon property.rest
  let more ← takeTerms first.rest
  let closed := passSemicolon more.rest
  return ⟨⟨property.value.text, first.value ++ more.value.1, more.value.2⟩, closed.rest,
    Nat.lt_of_le_of_lt closed.notLonger
      (Nat.lt_of_le_of_lt more.notLonger (Nat.lt_trans first.shorter property.shorter))⟩

/-- Takes declarations up to a closing brace or the end. -/
def takeDeclarations (ts : List Lexeme) : Except Stop (Passed (List Declaration) ts) :=
  match ts with
  | [] => .ok ⟨[], [], Nat.le_refl _⟩
  | t :: rest =>
    if t.token = .braceClose then .ok ⟨[], t :: rest, Nat.le_refl _⟩
    else if t.token = .semicolon then do
      let more ← takeDeclarations rest
      return ⟨more.value, more.rest, Nat.le_succ_of_le more.notLonger⟩
    else do
      let first ← takeDeclaration (t :: rest)
      have := first.shorter
      let more ← takeDeclarations first.rest
      return ⟨first.value :: more.value, more.rest,
        Nat.le_of_lt (Nat.lt_of_le_of_lt more.notLonger first.shorter)⟩
termination_by ts.length
decreasing_by all_goals simp only [List.length_cons] at *; omega

def takeRule (ts : List Lexeme) : Except Stop (Taken Rule ts) := do
  let selectors ← takeSelectors ts
  let opened ← take .braceOpen selectors.rest
  let declarations ← takeDeclarations opened.rest
  let closed ← take .braceClose declarations.rest
  return ⟨⟨selectors.value, declarations.value⟩, closed.rest,
    Nat.lt_trans closed.shorter
      (Nat.lt_of_le_of_lt declarations.notLonger
        (Nat.lt_trans opened.shorter selectors.shorter))⟩

def takeRules (ts : List Lexeme) : Except Stop (List Rule) :=
  if ts.isEmpty then .ok []
  else do
    let first ← takeRule ts
    have := first.shorter
    let more ← takeRules first.rest
    return first.value :: more
termination_by ts.length

def readRules (text : String) : Except ParseError (List Rule) :=
  let lexemes := lex (stripComments text.toList)
  (takeRules lexemes).mapError (·.toError lexemes.length)

end ReportModel.Css
