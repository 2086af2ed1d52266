/-!
# Quoted text

A text in double quotes, in which quotes, backslashes and control characters are
escaped.  The characters for which there is no short escape are written by their
code in lowercase hexadecimal digits without leading zeros.  Characters beyond
the ASCII range are written as they are.
-/

namespace Longest.Text.Quoted

/-- An ASCII control character, the one with code 7F included. -/
def isControl (character : Char) : Bool :=
  character.toNat < 0x20 || character.toNat == 0x7F

/-- The escape by code. -/
def escapeByCode (character : Char) : List Char :=
  ['\\', 'u', '\x7b'] ++ Nat.toDigits 16 character.toNat ++ ['\x7d']

/-- What is written for one character of the text. -/
def escape (character : Char) : List Char :=
  if character = '"' then ['\\', '"']
  else if character = '\\' then ['\\', '\\']
  else if character = '\n' then ['\\', 'n']
  else if character = '\r' then ['\\', 'r']
  else if character = '\t' then ['\\', 't']
  else if character = '\x00' then ['\\', '0']
  else if isControl character then escapeByCode character
  else [character]

/-- The text in double quotes. -/
def quote (text : String) : String :=
  String.ofList ('"' :: text.toList.flatMap escape ++ ['"'])

end Longest.Text.Quoted
