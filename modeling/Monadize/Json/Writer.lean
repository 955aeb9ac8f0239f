import Monadize.Json.Basic

/-! Writing JSON documents without white space. Every function puts its text in front of `rest`. -/

namespace Monadize

namespace Json

def hexDigit (n : Nat) : Char :=
  if n < 10 then Char.ofNat ('0'.toNat + n) else Char.ofNat ('a'.toNat + (n - 10))

/-- A character inside a string literal. Quotes, backslashes and control characters are escaped. -/
def writeChar (c : Char) (rest : List Char) : List Char :=
  if c = '"' then '\\' :: '"' :: rest
  else if c = '\\' then '\\' :: '\\' :: rest
  else if c = '\x08' then '\\' :: 'b' :: rest
  else if c = '\x0c' then '\\' :: 'f' :: rest
  else if c = '\n' then '\\' :: 'n' :: rest
  else if c = '\r' then '\\' :: 'r' :: rest
  else if c = '\t' then '\\' :: 't' :: rest
  else if c.toNat < 0x20 then
    '\\' :: 'u' :: '0' :: '0' :: hexDigit (c.toNat / 16) :: hexDigit (c.toNat % 16) :: rest
  else c :: rest

def writeString (text : String) (rest : List Char) : List Char :=
  '"' :: text.toList.foldr writeChar ('"' :: rest)

mutual
def write : Json → (rest : List Char) → List Char
  | .null, rest => "null".toList ++ rest
  | .bool true, rest => "true".toList ++ rest
  | .bool false, rest => "false".toList ++ rest
  | .nat value, rest => Nat.toDigits 10 value ++ rest
  | .number literal, rest => literal.toList ++ rest
  | .string text, rest => writeString text rest
  | .illFormed, rest => "\"\\ud800\"".toList ++ rest
  | .array [], rest => '[' :: ']' :: rest
  | .array (item :: items), rest => '[' :: item.write (writeItems items rest)
  | .object [], rest => '\x7b' :: '\x7d' :: rest
  | .object ((key, value) :: members), rest =>
      '\x7b' :: writeKey key (':' :: value.write (writeMembers members rest))

def writeItems : List Json → (rest : List Char) → List Char
  | [], rest => ']' :: rest
  | item :: items, rest => ',' :: item.write (writeItems items rest)

def writeMembers : List (Option String × Json) → (rest : List Char) → List Char
  | [], rest => '\x7d' :: rest
  | (key, value) :: members, rest =>
      ',' :: writeKey key (':' :: value.write (writeMembers members rest))

def writeKey : Option String → (rest : List Char) → List Char
  | some key, rest => writeString key rest
  | none, rest => "\"\\ud800\"".toList ++ rest
end

/-- The document as text. -/
def render (json : Json) : String := String.ofList (json.write [])

end Json

end Monadize
