import Monadize.Text.Invisible

/-! Text in quotes. Whatever is not visible in the text as itself is written as an escape, so that
two texts never look alike. -/

namespace Monadize

namespace Text

/-- The letter that stands for a character after a backslash, if it has one. -/
def escapeLetter? (c : Char) : Option Char :=
  if c = '"' then some '"'
  else if c = '\\' then some '\\'
  else if c = '\n' then some 'n'
  else if c = '\r' then some 'r'
  else if c = '\t' then some 't'
  else if c.toNat = 0 then some '0'
  else none

/-- A character inside quotes: by its letter, by its number in hexadecimal, or as itself. -/
def escape (c : Char) : List Char :=
  match escapeLetter? c with
  | some letter => ['\\', letter]
  | none =>
      if isInvisible c then ['\\', 'u', '\x7b'] ++ Nat.toDigits 16 c.toNat ++ ['\x7d'] else [c]

/-- A text in quotes. -/
def quoted (text : String) : String :=
  "\"" ++ String.ofList (text.toList.flatMap escape) ++ "\""

/-- A list of texts in quotes. -/
def quotedList (texts : List String) : String :=
  "[" ++ String.intercalate ", " (texts.map quoted) ++ "]"

end Text

end Monadize
