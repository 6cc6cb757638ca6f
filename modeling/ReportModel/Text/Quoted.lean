import ReportModel.Text.Visible

/-!
# Quoted text

A text between double quotes, in which every character that would be misread or could not be seen
is written as an escape.
-/

namespace ReportModel.Text

/-- The escape of a character by its code point in hexadecimal: `\u`, then the digits in braces. -/
def codeEscape (c : Char) : List Char :=
  '\\' :: 'u' :: '{' :: Nat.toDigits 16 c.toNat ++ ['}']

def quotedChar (c : Char) : List Char :=
  if c = '"' then ['\\', '"']
  else if c = '\\' then ['\\', '\\']
  else if c = '\n' then ['\\', 'n']
  else if c = '\r' then ['\\', 'r']
  else if c = '\t' then ['\\', 't']
  else if c.toNat = 0 then ['\\', '0']
  else if c.toNat < 0x20 || c.toNat = 0x7f then codeEscape c
  else if c.toNat < 0x7f || isVisible c then [c]
  else codeEscape c

def quote (s : String) : String :=
  String.ofList ('"' :: s.toList.flatMap quotedChar ++ ['"'])

end ReportModel.Text
