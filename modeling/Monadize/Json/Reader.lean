import Monadize.Json.Basic

/-! Reading JSON documents, strictly: no trailing commas, leading zeros or raw control characters.
Each function takes the characters still to be read and returns those it leaves. -/

namespace Monadize

namespace Json

def isBlank (c : Char) : Bool := c = ' ' || c = '\n' || c = '\t' || c = '\r'

def skipBlanks (input : List Char) : List Char := input.dropWhile isBlank

/-! ## Strings -/

def hexValue? (c : Char) : Option Nat :=
  if '0' ≤ c ∧ c ≤ '9' then some (c.toNat - '0'.toNat)
  else if 'a' ≤ c ∧ c ≤ 'f' then some (c.toNat - 'a'.toNat + 10)
  else if 'A' ≤ c ∧ c ≤ 'F' then some (c.toNat - 'A'.toNat + 10)
  else none

/-- The code unit of an escape with four hexadecimal digits. -/
def codeUnit? (a b c d : Char) : Option Nat := do
  return (((← hexValue? a) * 16 + (← hexValue? b)) * 16 + (← hexValue? c)) * 16 + (← hexValue? d)

def isHighSurrogate (unit : Nat) : Bool := 0xD800 ≤ unit && unit < 0xDC00

def isLowSurrogate (unit : Nat) : Bool := 0xDC00 ≤ unit && unit < 0xE000

/-- The character that a backslash and this letter stand for. -/
def shortEscape? (c : Char) : Option Char :=
  if c = '"' ∨ c = '\\' ∨ c = '/' then some c
  else if c = 'b' then some '\x08'
  else if c = 'f' then some '\x0c'
  else if c = 'n' then some '\n'
  else if c = 'r' then some '\r'
  else if c = 't' then some '\t'
  else none

/-- A string literal is a sequence of plain characters and of code units written in
hexadecimal. -/
inductive StringUnit where
  | char (c : Char)
  | unit (code : Nat)

/-- The rest of a string literal after its opening quote; `reversed` holds the units so far. -/
def readUnits (input : List Char) (reversed : List StringUnit)
    : Option (List StringUnit × List Char) :=
  match input with
  | [] => none
  | '"' :: rest => some (reversed.reverse, rest)
  | '\\' :: 'u' :: a :: b :: c :: d :: rest =>
      match codeUnit? a b c d with
      | none => none
      | some code => readUnits rest (.unit code :: reversed)
  | '\\' :: c :: rest =>
      match shortEscape? c with
      | none => none
      | some char => readUnits rest (.char char :: reversed)
  | c :: rest =>
      if c = '\\' ∨ c.toNat < 0x20 then none else readUnits rest (.char c :: reversed)

/-- The characters of a string literal. A high surrogate has to be followed by a low one, with
which it makes one character. -/
def decodeUnits : List StringUnit → Option (List Char)
  | [] => some []
  | .char c :: rest => (decodeUnits rest).map (c :: ·)
  | .unit high :: .unit low :: rest =>
      if isHighSurrogate high then
        if isLowSurrogate low then
          (decodeUnits rest).map
            (Char.ofNat (0x10000 + (high - 0xD800) * 0x400 + (low - 0xDC00)) :: ·)
        else none
      else if isLowSurrogate high then none
      else (decodeUnits (.unit low :: rest)).map (Char.ofNat high :: ·)
  | .unit code :: rest =>
      if isHighSurrogate code || isLowSurrogate code then none
      else (decodeUnits rest).map (Char.ofNat code :: ·)

/-- The rest of a string after its opening quote. An ill-formed one has no text. -/
def readString (input : List Char) : Option (Option String × List Char) := do
  let (units, rest) ← readUnits input []
  return ((decodeUnits units).map String.ofList, rest)

/-! ## Numbers -/

def digitsValue (digits : List Char) : Nat :=
  digits.foldl (fun value c => value * 10 + (c.toNat - '0'.toNat)) 0

def isDigit (c : Char) : Bool := '0' ≤ c && c ≤ '9'

/-- One or more digits. -/
def readDigits (input : List Char) : Option (List Char × List Char) :=
  match input.takeWhile isDigit with
  | [] => none
  | digits => some (digits, input.dropWhile isDigit)

/-- Digits without a leading zero. -/
def readInteger (input : List Char) : Option (List Char × List Char) :=
  match readDigits input with
  | some ('0' :: _ :: _, _) => none
  | result => result

/-- A fraction, if there is one. -/
def readFraction : List Char → Option (List Char × List Char)
  | '.' :: rest => do
      let (digits, rest) ← readDigits rest
      return ('.' :: digits, rest)
  | input => some ([], input)

/-- A sign, if there is one. -/
def readSign : List Char → List Char × List Char
  | '+' :: rest => (['+'], rest)
  | '-' :: rest => (['-'], rest)
  | input => ([], input)

/-- An exponent, if there is one. -/
def readExponent : List Char → Option (List Char × List Char)
  | mark :: rest =>
      if mark = 'e' ∨ mark = 'E' then do
        let (sign, rest) := readSign rest
        let (digits, rest) ← readDigits rest
        return (mark :: (sign ++ digits), rest)
      else some ([], mark :: rest)
  | [] => some ([], [])

def readNumber (input : List Char) : Option (Json × List Char) := do
  let (sign, rest) := match input with
    | '-' :: rest => (['-'], rest)
    | input => ([], input)
  let (digits, rest) ← readInteger rest
  let (fraction, rest) ← readFraction rest
  let (exponent, rest) ← readExponent rest
  if sign.isEmpty && fraction.isEmpty && exponent.isEmpty then
    return (.nat (digitsValue digits), rest)
  else
    return (.number (String.ofList (sign ++ digits ++ fraction ++ exponent)), rest)

/-! ## Documents -/

/-- The rest of `word`, if the input starts with it. -/
def readWord : (word input : List Char) → Option (List Char)
  | [], input => some input
  | w :: word, c :: input => if w = c then readWord word input else none
  | _, _ => none

mutual
/-- A value after blanks. -/
def readValue : (fuel : Nat) → List Char → Option (Json × List Char)
  | 0, _ => none
  | fuel + 1, input =>
      match skipBlanks input with
      | '"' :: rest => do
          let (text, rest) ← readString rest
          return (match text with | some text => .string text | none => .illFormed, rest)
      | '[' :: rest =>
          match skipBlanks rest with
          | ']' :: rest => some (.array [], rest)
          | _ => readItems fuel rest []
      | '\x7b' :: rest =>
          match skipBlanks rest with
          | '\x7d' :: rest => some (.object [], rest)
          | _ => readMembers fuel rest []
      | 'n' :: rest => (readWord "ull".toList rest).map fun rest => (.null, rest)
      | 't' :: rest => (readWord "rue".toList rest).map fun rest => (.bool true, rest)
      | 'f' :: rest => (readWord "alse".toList rest).map fun rest => (.bool false, rest)
      | rest => readNumber rest

/-- The items of an array from the next one on; `reversed` holds those before. -/
def readItems : (fuel : Nat) → List Char → (reversed : List Json) → Option (Json × List Char)
  | 0, _, _ => none
  | fuel + 1, input, reversed =>
      match readValue fuel input with
      | none => none
      | some (item, rest) =>
          match skipBlanks rest with
          | ',' :: rest => readItems fuel rest (item :: reversed)
          | ']' :: rest => some (.array (item :: reversed).reverse, rest)
          | _ => none

/-- The members of an object from the next one on; `reversed` holds those before. -/
def readMembers : (fuel : Nat) → List Char → (reversed : List (Option String × Json)) →
    Option (Json × List Char)
  | 0, _, _ => none
  | fuel + 1, input, reversed =>
      match skipBlanks input with
      | '"' :: rest =>
          match readString rest with
          | none => none
          | some (key, rest) =>
              match skipBlanks rest with
              | ':' :: rest =>
                  match readValue fuel rest with
                  | none => none
                  | some (value, rest) =>
                      match skipBlanks rest with
                      | ',' :: rest => readMembers fuel rest ((key, value) :: reversed)
                      | '\x7d' :: rest =>
                          some (.object ((key, value) :: reversed).reverse, rest)
                      | _ => none
              | _ => none
      | _ => none
end

/-- Read a whole text as one document. Each value takes at least one character, so the number of
characters bounds the recursion. -/
def parse? (text : String) : Option Json := do
  let input := text.toList
  let (json, rest) ← readValue (input.length + 1) input
  if (skipBlanks rest).isEmpty then some json else none

end Json

end Monadize
