/-!
# JSON text

JSON values and their text over several lines, with an indentation of two blanks for each level.
-/

namespace ReportModel.Text

/-- A JSON value. Numbers are given by their text, and the fields of an object in the order they are
to be written. -/
inductive Json where
  | null
  | boolean (b : Bool)
  | number (text : String)
  | string (text : String)
  | array (items : List Json)
  | object (fields : List (String × Json))
deriving Inhabited

namespace Json

def fourDigits (code : Nat) : List Char :=
  let digits := Nat.toDigits 16 code
  List.replicate (4 - digits.length) '0' ++ digits

def stringChar (c : Char) : List Char :=
  if c = '"' then ['\\', '"']
  else if c = '\\' then ['\\', '\\']
  else if c = '\n' then ['\\', 'n']
  else if c = '\r' then ['\\', 'r']
  else if c = '\t' then ['\\', 't']
  else if c.toNat = 8 then ['\\', 'b']
  else if c.toNat = 12 then ['\\', 'f']
  else if c.toNat < 32 then '\\' :: 'u' :: fourDigits c.toNat
  else [c]

def stringText (s : String) : String :=
  String.ofList ('"' :: s.toList.flatMap stringChar ++ ['"'])

/-- A new line, indented to a level. -/
def newLine (level : Nat) : String :=
  "\n" ++ String.ofList (List.replicate (2 * level) ' ')

mutual

def text (level : Nat) : Json → String
  | .null => "null"
  | .boolean b => if b then "true" else "false"
  | .number s => s
  | .string s => stringText s
  | .array [] => "[]"
  | .array items =>
    "[" ++ ",".intercalate (itemTexts (level + 1) items) ++ newLine level ++ "]"
  | .object [] => "\x7b\x7d"
  | .object fields =>
    "\x7b" ++ ",".intercalate (fieldTexts (level + 1) fields) ++ newLine level ++ "\x7d"

def itemTexts (level : Nat) : List Json → List String
  | [] => []
  | item :: items => (newLine level ++ text level item) :: itemTexts level items

def fieldTexts (level : Nat) : List (String × Json) → List String
  | [] => []
  | (name, value) :: fields =>
    (newLine level ++ stringText name ++ ": " ++ text level value) :: fieldTexts level fields

end

end Json

end ReportModel.Text
