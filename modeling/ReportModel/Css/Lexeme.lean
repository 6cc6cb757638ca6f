import ReportModel.Value.Kind

/-!
# Lexemes

A stylesheet is cut into lexemes: at each place the longest text that one of the patterns admits.
Blanks separate lexemes; a quote without an end takes the rest of the text with it, and any other
character that starts no lexeme is passed over.
-/

namespace ReportModel.Css

/-- The sorts of lexemes. -/
inductive Token where
  | important
  | hexColor
  | dimension
  | pseudoClass
  | doubleQuoted
  | singleQuoted
  | number
  | ident
  | braceOpen
  | braceClose
  | colon
  | semicolon
  | comma
  | dot
  | hash
  | star
  | greaterThan
deriving DecidableEq, Repr

def Token.name : Token → String
  | .important => "Important"
  | .hexColor => "HexColor"
  | .dimension => "Dimension"
  | .pseudoClass => "PseudoClass"
  | .doubleQuoted => "StringLiteral"
  | .singleQuoted => "StringLiteralSingle"
  | .number => "Number"
  | .ident => "Ident"
  | .braceOpen => "BraceOpen"
  | .braceClose => "BraceClose"
  | .colon => "Colon"
  | .semicolon => "Semicolon"
  | .comma => "Comma"
  | .dot => "Dot"
  | .hash => "Hash"
  | .star => "Star"
  | .greaterThan => "GreaterThan"

def isSpace (c : Char) : Bool :=
  c = ' ' || c = '\t' || c = '\n' || c = '\r' || c = '\x0c'

def isIdentStart (c : Char) : Bool :=
  c.isAlpha || c = '_'

def isIdentPart (c : Char) : Bool :=
  c.isAlpha || c.isDigit || c = '_' || c = '-'

/-- A pattern gives the length of the longest text at the start of the input that it admits, zero if
it admits none. -/
abbrev Pattern := List Char → Nat

namespace Pattern

/-- The length of the longest start of the input whose characters satisfy `p`. -/
def run (p : Char → Bool) (cs : List Char) : Nat :=
  (cs.takeWhile p).length

def literal (word : List Char) : Pattern := fun cs =>
  if word.isPrefixOf cs then word.length else 0

/-- `#` with three to eight hexadecimal digits. -/
def hexColor : Pattern
  | '#' :: cs => let count := run isHexDigit cs; if 3 ≤ count then 1 + min count 8 else 0
  | _ => 0

/-- Digits, with a point and more digits if there is a digit after the point. -/
def unsigned (cs : List Char) : Nat :=
  let whole := run Char.isDigit cs
  if whole = 0 then 0
  else match cs.drop whole with
    | '.' :: rest =>
      let fraction := run Char.isDigit rest
      if fraction = 0 then whole else whole + 1 + fraction
    | _ => whole

def number : Pattern
  | '-' :: cs => let count := unsigned cs; if count = 0 then 0 else 1 + count
  | cs => unsigned cs

def units : List (List Char) :=
  [['p', 't'], ['p', 'x'], ['p', 'c'], ['e', 'm'], ['e', 'x'], ['i', 'n'], ['c', 'm'], ['m', 'm'],
    ['%']]

/-- A number directly followed by a unit. -/
def dimension : Pattern := fun cs =>
  let count := number cs
  if count = 0 then 0
  else match units.find? (·.isPrefixOf (cs.drop count)) with
    | some found => count + found.length
    | none => 0

/-- `:` with a name that starts with a letter. -/
def pseudoClass : Pattern
  | ':' :: c :: cs => if c.isAlpha then 2 + run isIdentPart cs else 0
  | _ => 0

/-- Everything from a quote to the next. -/
def quoted (quote : Char) : Pattern
  | [] => 0
  | c :: cs =>
    if c = quote then
      let body := run (· ≠ quote) cs
      if body < cs.length then 2 + body else 0
    else 0

def ident : Pattern
  | c :: cs => if isIdentStart c then 1 + run isIdentPart cs else 0
  | [] => 0

end Pattern

def Token.pattern : Token → Pattern
  | .important => .literal ['!', 'i', 'm', 'p', 'o', 'r', 't', 'a', 'n', 't']
  | .hexColor => .hexColor
  | .dimension => .dimension
  | .pseudoClass => .pseudoClass
  | .doubleQuoted => .quoted '"'
  | .singleQuoted => .quoted '\''
  | .number => .number
  | .ident => .ident
  | .braceOpen => .literal ['{']
  | .braceClose => .literal ['}']
  | .colon => .literal [':']
  | .semicolon => .literal [';']
  | .comma => .literal [',']
  | .dot => .literal ['.']
  | .hash => .literal ['#']
  | .star => .literal ['*']
  | .greaterThan => .literal ['>']

def Token.all : List Token :=
  [.important, .hexColor, .dimension, .pseudoClass, .doubleQuoted, .singleQuoted, .number, .ident,
    .braceOpen, .braceClose, .colon, .semicolon, .comma, .dot, .hash, .star, .greaterThan]

/-- The sort whose pattern admits the longest text at the start of the input, with that length. -/
def longest (cs : List Char) : Option (Token × Nat) :=
  Token.all.foldl (fun best token =>
    let count := token.pattern cs
    if (best.map (·.2)).getD 0 < count then some (token, count) else best) none

/-- A piece of a stylesheet. -/
structure Lexeme where
  token : Token
  chars : List Char
  /-- Whether nothing stands between this lexeme and the one before it. -/
  joined : Bool
deriving DecidableEq, Repr

/-- The text of a lexeme. -/
def Lexeme.text (lexeme : Lexeme) : String :=
  String.ofList lexeme.chars

/-- The lexemes of a text, of which the first `skip` characters belong to a lexeme already cut;
`joined` tells whether the text continues right after a lexeme. -/
def lexFrom (joined : Bool) : (skip : Nat) → List Char → List Lexeme
  | _, [] => []
  | skip + 1, _ :: cs => lexFrom joined skip cs
  | 0, c :: cs =>
    if isSpace c then lexFrom false 0 cs
    else match longest (c :: cs) with
      | some (token, count) =>
        ⟨token, (c :: cs).take count, joined⟩ :: lexFrom true (count - 1) cs
      | none => if c = '"' || c = '\'' then [] else lexFrom false 0 cs

def lex (cs : List Char) : List Lexeme :=
  lexFrom false 0 cs

end ReportModel.Css
