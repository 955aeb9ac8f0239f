import Mathlib.Tactic.IntervalCases
import Monadize.Json.Reader
import Monadize.Json.Writer

/-! What is written as a document is read back, whatever the names in it and however deep it is. The
text of a document is read from the front of any text that goes on as documents can go on.
-/

namespace Monadize

namespace Json

-----------------------------------------------------------------------------------------
-- Strings
-----------------------------------------------------------------------------------------

theorem hexValue?_hexDigit {n : Nat} (small : n < 16) : hexValue? (hexDigit n) = some n := by
  interval_cases n <;> decide

/-- The unit that a written character is read as. -/
def unitOf (c : Char) : StringUnit :=
  if c.toNat < 0x20 ∧ c ≠ '\x08' ∧ c ≠ '\x0c' ∧ c ≠ '\n' ∧ c ≠ '\r' ∧ c ≠ '\t' then .unit c.toNat
  else .char c

theorem readUnits_writeChar (c : Char) (rest : List Char) (reversed : List StringUnit)
    : readUnits (writeChar c rest) reversed = readUnits rest (unitOf c :: reversed) := by
  unfold writeChar
  split_ifs with quote backslash backspace feed newline carriage tab control
  · subst quote; rfl
  · subst backslash; rfl
  · subst backspace; rfl
  · subst feed; rfl
  · subst newline; rfl
  · subst carriage; rfl
  · subst tab; rfl
  · have high := hexValue?_hexDigit (n := c.toNat / 16) (by omega)
    have low := hexValue?_hexDigit (n := c.toNat % 16) (by omega)
    have code : codeUnit? '0' '0' (hexDigit (c.toNat / 16)) (hexDigit (c.toNat % 16))
        = some c.toNat := by
      have zero : hexValue? '0' = some 0 := by decide
      simp only [codeUnit?, zero, high, low, Option.bind_eq_bind, Option.bind_some,
        Option.pure_def]
      congr 1
      omega
    have unit : unitOf c = .unit c.toNat := by simp [unitOf, *]
    rw [readUnits, code, unit]
  · have char : unitOf c = .char c := by simp [unitOf, control]
    rw [char, readUnits.eq_def]
    simp [*]

theorem length_lt_writeChar (c : Char) (rest : List Char)
    : rest.length < (writeChar c rest).length := by
  unfold writeChar
  split_ifs <;> simp only [List.length_cons] <;> omega

theorem length_lt_foldr (chars rest : List Char)
    : rest.length < (chars.foldr writeChar ('"' :: rest)).length := by
  induction chars with
  | nil => exact Nat.lt_succ_self _
  | cons c chars ih => exact Nat.lt_trans ih (length_lt_writeChar c _)

theorem readUnits_foldr (chars rest : List Char) (reversed : List StringUnit)
    : readUnits (chars.foldr writeChar ('"' :: rest)) reversed
      = some (reversed.reverse ++ chars.map unitOf, rest) := by
  induction chars generalizing reversed with
  | nil => simp [readUnits]
  | cons c chars ih => simp [readUnits_writeChar, ih]

/-- A unit that is no surrogate stands for itself, whatever follows it. -/
theorem decodeUnits_unit {code : Nat} (small : code < 0x20) (rest : List StringUnit)
    : decodeUnits (.unit code :: rest) = (decodeUnits rest).map (Char.ofNat code :: ·) := by
  have noHigh : isHighSurrogate code = false := by simp [isHighSurrogate]; omega
  have noLow : isLowSurrogate code = false := by simp [isLowSurrogate]; omega
  cases rest with
  | nil => simp [decodeUnits, noHigh, noLow]
  | cons unit rest => cases unit <;> simp [decodeUnits, noHigh, noLow]

theorem decodeUnits_map_unitOf (chars : List Char)
    : decodeUnits (chars.map unitOf) = some chars := by
  induction chars with
  | nil => rfl
  | cons c chars ih =>
      rw [List.map_cons]
      by_cases control : c.toNat < 0x20 ∧ c ≠ '\x08' ∧ c ≠ '\x0c' ∧ c ≠ '\n' ∧ c ≠ '\r' ∧ c ≠ '\t'
      · rw [unitOf, if_pos control, decodeUnits_unit control.1, ih]
        simp
      · rw [unitOf, if_neg control]
        simp [decodeUnits, ih]

theorem readString_foldr (text : String) (rest : List Char)
    : readString (text.toList.foldr writeChar ('"' :: rest)) = some (some text, rest) := by
  simp [readString, readUnits_foldr, decodeUnits_map_unitOf]

-----------------------------------------------------------------------------------------
-- Numbers
-----------------------------------------------------------------------------------------

/-- The text after a value: there is none, or it starts with a mark that closes or divides. -/
def Stops (rest : List Char) : Prop :=
  rest = [] ∨ ∃ c tail, rest = c :: tail ∧ (c = ',' ∨ c = ']' ∨ c = '\x7d')

theorem isDigit_of_mem_toDigits {n : Nat} {c : Char} (among : c ∈ Nat.toDigits 10 n)
    : isDigit c = true := by
  have digit := Nat.isDigit_of_mem_toDigits (by omega) (by omega) among
  simpa [Char.isDigit, isDigit, Char.le_def] using digit

/-- A number other than zero is not written with a leading zero, by induction on its digits. -/
theorem head?_toDigits {n : Nat} (positive : 0 < n) : (Nat.toDigits 10 n).head? ≠ some '0' := by
  induction n using Nat.strongRecOn with
  | ind n ih =>
      rw [Nat.toDigits_eq_if (by omega)]
      split_ifs with small
      · interval_cases n <;> decide
      · have first := ih (n / 10) (by omega) (by omega)
        cases written : Nat.toDigits 10 (n / 10) with
        | nil => exact absurd written Nat.toDigits_ne_nil
        | cons c digits => simpa [written] using first

theorem readInteger_toDigits (n : Nat) {rest : List Char} (stops : Stops rest)
    : readInteger (Nat.toDigits 10 n ++ rest) = some (Nat.toDigits 10 n, rest) := by
  have each : ∀ c ∈ Nat.toDigits 10 n, isDigit c = true := fun c => isDigit_of_mem_toDigits
  have taken : rest.takeWhile isDigit = [] ∧ rest.dropWhile isDigit = rest := by
    rcases stops with rfl | ⟨c, tail, rfl, rfl | rfl | rfl⟩ <;> exact ⟨rfl, rfl⟩
  have digits : readDigits (Nat.toDigits 10 n ++ rest) = some (Nat.toDigits 10 n, rest) := by
    simp only [readDigits, List.takeWhile_append_of_pos each, List.dropWhile_append_of_pos each,
      taken, List.append_nil]
    cases written : Nat.toDigits 10 n with
    | nil => exact absurd written Nat.toDigits_ne_nil
    | cons c digits => rfl
  have leading : ∀ c tail, Nat.toDigits 10 n ≠ '0' :: c :: tail := by
    intro c tail written
    by_cases zero : n = 0
    · subst zero
      cases written
    · exact head?_toDigits (Nat.pos_of_ne_zero zero) (by rw [written]; rfl)
  unfold readInteger
  rw [digits]
  split
  · next found =>
      rw [Option.some.injEq, Prod.mk.injEq] at found
      exact absurd found.1 (leading _ _)
  · rfl

theorem readNumber_toDigits (n : Nat) {rest : List Char} (stops : Stops rest)
    : readNumber (Nat.toDigits 10 n ++ rest) = some (.nat n, rest) := by
  have integer := readInteger_toDigits n stops
  have fraction : readFraction rest = some ([], rest) := by
    rcases stops with rfl | ⟨c, tail, rfl, rfl | rfl | rfl⟩ <;> rfl
  have exponent : readExponent rest = some ([], rest) := by
    rcases stops with rfl | ⟨c, tail, rfl, rfl | rfl | rfl⟩ <;> rfl
  have value : digitsValue (Nat.toDigits 10 n) = n := by
    simpa [digitsValue, Nat.ofDigitChars, Nat.mul_comm] using Nat.ofDigitChars_ten_toDigits (n := n)
  have unsigned : ∀ tail, Nat.toDigits 10 n ++ rest ≠ '-' :: tail := by
    intro tail written
    cases digits : Nat.toDigits 10 n with
    | nil => exact Nat.toDigits_ne_nil digits
    | cons c more =>
        rw [digits] at written
        cases written
        exact absurd (isDigit_of_mem_toDigits (digits ▸ List.mem_cons_self)) (by decide)
  unfold readNumber
  split
  next sign tail started =>
    split at started
    · next written => exact absurd written (unsigned _)
    · cases started
      simp [integer, fraction, exponent, value]

-----------------------------------------------------------------------------------------
-- Documents
-----------------------------------------------------------------------------------------

/-- Documents in which every number and every string stands for a value. -/
inductive Plain : Json → Prop
  | null : Plain .null
  | bool (value : Bool) : Plain (.bool value)
  | nat (value : Nat) : Plain (.nat value)
  | string (text : String) : Plain (.string text)
  | array {items : List Json} (each : ∀ item ∈ items, Plain item) : Plain (.array items)
  | object {members : List (String × Json)} (each : ∀ member ∈ members, Plain member.2)
    : Plain (.mkObject members)

/-- The document starts with a mark of its own, and is read back from the front of a text that goes
on as documents can go on. The length of its text bounds the recursion.
-/
structure ReadBack (json : Json) : Prop where
  starts
    : ∀ rest, ∃ c tail,
        json.write rest = c :: tail ∧ isBlank c = false ∧ c ≠ ']' ∧ rest.length ≤ tail.length
  reads
    : ∀ fuel rest,
        Stops rest
        → (json.write rest).length ≤ fuel + 1 + rest.length
        → readValue (fuel + 1) (json.write rest) = some (json, rest)

theorem ReadBack.length_lt {json : Json} (back : ReadBack json) (rest : List Char)
    : rest.length < (json.write rest).length := by
  obtain ⟨c, tail, text, _, _, longer⟩ := back.starts rest
  rw [text, List.length_cons]
  omega

theorem skipBlanks_cons {c : Char} (visible : isBlank c = false) (rest : List Char)
    : skipBlanks (c :: rest) = c :: rest := by
  simp [skipBlanks, visible]

theorem readBack_null : ReadBack .null where
  starts rest := by
    refine ⟨'n', 'u' :: 'l' :: 'l' :: rest, rfl, rfl, by decide, ?_⟩
    simp only [List.length_cons]
    omega
  reads fuel rest _ _ := rfl

theorem readBack_bool (value : Bool) : ReadBack (.bool value) where
  starts rest := by
    cases value
    · refine ⟨'f', 'a' :: 'l' :: 's' :: 'e' :: rest, rfl, rfl, by decide, ?_⟩
      simp only [List.length_cons]
      omega
    · refine ⟨'t', 'r' :: 'u' :: 'e' :: rest, rfl, rfl, by decide, ?_⟩
      simp only [List.length_cons]
      omega
  reads fuel rest _ _ := by cases value <;> rfl

theorem readBack_string (text : String) : ReadBack (.string text) where
  starts rest := ⟨'"', _, rfl, rfl, by decide, Nat.le_of_lt (length_lt_foldr text.toList rest)⟩
  reads fuel rest _ _ := by
    have written : (Json.string text).write rest
        = '"' :: text.toList.foldr writeChar ('"' :: rest) := rfl
    rw [written, readValue, skipBlanks_cons rfl]
    simp [readString_foldr]

theorem exists_of_isDigit {c : Char} (digit : isDigit c = true)
    : ∃ n, n < 10 ∧ c = Char.ofNat (48 + n) := by
  have range : 48 ≤ c.toNat ∧ c.toNat ≤ 57 := by
    simpa [isDigit, Char.le_def, UInt32.le_iff_toNat_le] using digit
  refine ⟨c.toNat - 48, by omega, ?_⟩
  rw [Nat.add_sub_cancel' range.1, Char.ofNat_toNat]

/-- A value that starts with a digit is a number. -/
theorem readValue_digit {c : Char} (digit : isDigit c = true) (fuel : Nat) (rest : List Char)
    : readValue (fuel + 1) (c :: rest) = readNumber (c :: rest) := by
  obtain ⟨n, small, rfl⟩ := exists_of_isDigit digit
  interval_cases n <;> rfl

theorem readBack_nat (value : Nat) : ReadBack (.nat value) := by
  obtain ⟨c, digits, written⟩ :=
    List.exists_cons_of_ne_nil (Nat.toDigits_ne_nil (n := value) (b := 10))
  have text : ∀ rest, (Json.nat value).write rest = c :: (digits ++ rest) := by
    intro rest
    have asDigits : (Json.nat value).write rest = Nat.toDigits 10 value ++ rest := rfl
    rw [asDigits, written, List.cons_append]
  have digit : isDigit c = true := isDigit_of_mem_toDigits (written ▸ List.mem_cons_self)
  have visible : isBlank c = false ∧ c ≠ ']' := by
    obtain ⟨n, small, rfl⟩ := exists_of_isDigit digit
    interval_cases n <;> decide
  refine ⟨fun rest => ⟨c, _, text rest, visible.1, visible.2, by simp⟩, fun fuel rest stops _ => ?_⟩
  rw [text, readValue_digit digit, ← List.cons_append, ← written]
  exact readNumber_toDigits value stops

-----------------------------------------------------------------------------------------
-- Arrays
-----------------------------------------------------------------------------------------

theorem stops_writeItems (items : List Json) (rest : List Char) : Stops (writeItems items rest) := by
  cases items with
  | nil => exact .inr ⟨']', rest, rfl, .inr (.inl rfl)⟩
  | cons item items => exact .inr ⟨',', _, rfl, .inl rfl⟩

theorem length_lt_writeItems {items : List Json} (each : ∀ item ∈ items, ReadBack item)
    (rest : List Char)
    : rest.length < (writeItems items rest).length := by
  induction items with
  | nil => exact Nat.lt_succ_self _
  | cons item items ih =>
      have here := (each item List.mem_cons_self).length_lt (writeItems items rest)
      have later := ih fun other among => each other (List.mem_cons_of_mem item among)
      have text : writeItems (item :: items) rest = ',' :: item.write (writeItems items rest) := rfl
      rw [text, List.length_cons]
      omega

theorem readItems_more {fuel : Nat} {input rest : List Char} {item : Json}
    (read : readValue fuel input = some (item, ',' :: rest)) (reversed : List Json)
    : readItems (fuel + 1) input reversed = readItems fuel rest (item :: reversed) := by
  rw [readItems, read]
  rfl

theorem readItems_last {fuel : Nat} {input rest : List Char} {item : Json}
    (read : readValue fuel input = some (item, ']' :: rest)) (reversed : List Json)
    : readItems (fuel + 1) input reversed = some (.array (item :: reversed).reverse, rest) := by
  rw [readItems, read]
  rfl

/-- The items of an array are read back from one of them on, by induction on those after it. -/
theorem readItems_write {item : Json} {items : List Json} (first : ReadBack item)
    (others : ∀ item ∈ items, ReadBack item) {fuel : Nat} {rest : List Char} (reversed : List Json)
    (enough : (item.write (writeItems items rest)).length ≤ fuel + rest.length)
    : readItems fuel (item.write (writeItems items rest)) reversed
      = some (.array (reversed.reverse ++ item :: items), rest) := by
  induction items generalizing item fuel reversed with
  | nil =>
      have grown := first.length_lt (writeItems [] rest)
      have closed : (writeItems [] rest).length = rest.length + 1 := rfl
      obtain ⟨fuel, rfl⟩ : ∃ more, fuel = more + 2 := ⟨fuel - 2, by omega⟩
      have read := first.reads fuel _ (stops_writeItems [] rest) (by omega)
      rw [readItems_last read, List.reverse_cons]
  | cons next items ih =>
      have grown := first.length_lt (writeItems (next :: items) rest)
      have text : writeItems (next :: items) rest = ',' :: next.write (writeItems items rest) := rfl
      have longer : (writeItems (next :: items) rest).length
          = (next.write (writeItems items rest)).length + 1 := rfl
      have later := length_lt_writeItems others rest
      obtain ⟨fuel, rfl⟩ : ∃ more, fuel = more + 2 := ⟨fuel - 2, by omega⟩
      have read := first.reads fuel _ (stops_writeItems (next :: items) rest) (by omega)
      have remaining := ih (others next List.mem_cons_self)
        (fun other among => others other (List.mem_cons_of_mem next among))
        (item :: reversed) (by omega : _ ≤ (fuel + 1) + rest.length)
      rw [text] at read ⊢
      rw [readItems_more read, remaining, List.reverse_cons, List.append_assoc,
        List.singleton_append]

theorem readValue_array {c : Char} (visible : isBlank c = false) (unclosed : c ≠ ']') (fuel : Nat)
    (tail : List Char)
    : readValue (fuel + 1) ('[' :: c :: tail) = readItems fuel (c :: tail) [] := by
  rw [readValue, skipBlanks_cons rfl]
  simp only [skipBlanks_cons visible]
  split
  · next closed =>
      cases closed
      exact absurd rfl unclosed
  · rfl

theorem readBack_array {items : List Json} (each : ∀ item ∈ items, ReadBack item)
    : ReadBack (.array items) := by
  cases items with
  | nil =>
      refine ⟨fun rest => ⟨'[', ']' :: rest, rfl, rfl, by decide, ?_⟩, fun fuel rest _ _ => rfl⟩
      exact Nat.le_succ _
  | cons item items =>
      have first := each item List.mem_cons_self
      have others : ∀ other ∈ items, ReadBack other :=
        fun other among => each other (List.mem_cons_of_mem item among)
      have text : ∀ rest,
          (Json.array (item :: items)).write rest = '[' :: item.write (writeItems items rest) :=
        fun rest => rfl
      refine ⟨fun rest => ⟨'[', _, text rest, rfl, by decide, ?_⟩, fun fuel rest _ enough => ?_⟩
      · have := first.length_lt (writeItems items rest)
        have := length_lt_writeItems others rest
        omega
      · obtain ⟨c, tail, starts, visible, unclosed, _⟩ := first.starts (writeItems items rest)
        rw [text, List.length_cons] at enough
        have read : readItems fuel (item.write (writeItems items rest)) []
            = some (.array ([].reverse ++ item :: items), rest) :=
          readItems_write first others [] (by omega)
        rw [text, starts, readValue_array visible unclosed, ← starts, read]
        rfl

-----------------------------------------------------------------------------------------
-- Objects
-----------------------------------------------------------------------------------------

/-- A member is written as its name, a colon and its value. -/
def writeMember (member : String × Json) (rest : List Char) : List Char :=
  '"' :: member.1.toList.foldr writeChar ('"' :: ':' :: member.2.write rest)

def writeOthers (members : List (String × Json)) (rest : List Char) : List Char :=
  writeMembers (members.map fun member => (some member.1, member.2)) rest

theorem stops_writeOthers (members : List (String × Json)) (rest : List Char)
    : Stops (writeOthers members rest) := by
  cases members with
  | nil => exact .inr ⟨'\x7d', rest, rfl, .inr (.inr rfl)⟩
  | cons member members => exact .inr ⟨',', _, rfl, .inl rfl⟩

theorem length_lt_writeMember (member : String × Json) (rest : List Char)
    : (member.2.write rest).length + 2 < (writeMember member rest).length := by
  have name := length_lt_foldr member.1.toList (':' :: member.2.write rest)
  rw [List.length_cons] at name
  rw [writeMember, List.length_cons]
  omega

theorem length_lt_writeOthers {members : List (String × Json)}
    (each : ∀ member ∈ members, ReadBack member.2) (rest : List Char)
    : rest.length < (writeOthers members rest).length := by
  induction members with
  | nil => exact Nat.lt_succ_self _
  | cons member members ih =>
      have here := length_lt_writeMember member (writeOthers members rest)
      have value := (each member List.mem_cons_self).length_lt (writeOthers members rest)
      have later := ih fun other among => each other (List.mem_cons_of_mem member among)
      have text : writeOthers (member :: members) rest
          = ',' :: writeMember member (writeOthers members rest) := rfl
      rw [text, List.length_cons]
      omega

theorem readMembers_more {fuel : Nat} {member : String × Json} {after rest : List Char}
    (read : readValue fuel (member.2.write after) = some (member.2, ',' :: rest))
    (reversed : List (Option String × Json))
    : readMembers (fuel + 1) (writeMember member after) reversed
      = readMembers fuel rest ((some member.1, member.2) :: reversed) := by
  rw [writeMember, readMembers, skipBlanks_cons rfl]
  simp only [readString_foldr, skipBlanks_cons (c := ':') rfl, read, skipBlanks_cons (c := ',') rfl]

theorem readMembers_last {fuel : Nat} {member : String × Json} {after rest : List Char}
    (read : readValue fuel (member.2.write after) = some (member.2, '\x7d' :: rest))
    (reversed : List (Option String × Json))
    : readMembers (fuel + 1) (writeMember member after) reversed
      = some (.object ((some member.1, member.2) :: reversed).reverse, rest) := by
  rw [writeMember, readMembers, skipBlanks_cons rfl]
  simp only [readString_foldr, skipBlanks_cons (c := ':') rfl, read,
    skipBlanks_cons (c := '\x7d') rfl]

/-- The members of an object are read back from one of them on, by induction on those after it. -/
theorem readMembers_write {member : String × Json} {members : List (String × Json)}
    (first : ReadBack member.2) (others : ∀ member ∈ members, ReadBack member.2) {fuel : Nat}
    {rest : List Char} (reversed : List (Option String × Json))
    (enough : (writeMember member (writeOthers members rest)).length ≤ fuel + rest.length)
    : readMembers fuel (writeMember member (writeOthers members rest)) reversed
      = some (.object (reversed.reverse
          ++ (member :: members).map fun member => (some member.1, member.2)), rest) := by
  induction members generalizing member fuel reversed with
  | nil =>
      have grown := length_lt_writeMember member (writeOthers [] rest)
      have value := first.length_lt (writeOthers [] rest)
      have closed : (writeOthers [] rest).length = rest.length + 1 := rfl
      obtain ⟨fuel, rfl⟩ : ∃ more, fuel = more + 2 := ⟨fuel - 2, by omega⟩
      have read := first.reads fuel _ (stops_writeOthers [] rest) (by omega)
      rw [readMembers_last read, List.reverse_cons]
      rfl
  | cons next members ih =>
      have grown := length_lt_writeMember member (writeOthers (next :: members) rest)
      have value := first.length_lt (writeOthers (next :: members) rest)
      have text : writeOthers (next :: members) rest
          = ',' :: writeMember next (writeOthers members rest) := rfl
      have longer : (writeOthers (next :: members) rest).length
          = (writeMember next (writeOthers members rest)).length + 1 := rfl
      have later := length_lt_writeOthers others rest
      obtain ⟨fuel, rfl⟩ : ∃ more, fuel = more + 2 := ⟨fuel - 2, by omega⟩
      have read := first.reads fuel _ (stops_writeOthers (next :: members) rest) (by omega)
      have remaining := ih (others next List.mem_cons_self)
        (fun other among => others other (List.mem_cons_of_mem next among))
        ((some member.1, member.2) :: reversed) (by omega : _ ≤ (fuel + 1) + rest.length)
      rw [text] at read ⊢
      rw [readMembers_more read, remaining, List.reverse_cons, List.append_assoc]
      rfl

theorem readBack_object {members : List (String × Json)}
    (each : ∀ member ∈ members, ReadBack member.2)
    : ReadBack (.mkObject members) := by
  cases members with
  | nil =>
      refine ⟨fun rest => ⟨'\x7b', '\x7d' :: rest, rfl, rfl, by decide, ?_⟩, fun fuel rest _ _ => rfl⟩
      exact Nat.le_succ _
  | cons member members =>
      have first := each member List.mem_cons_self
      have others : ∀ other ∈ members, ReadBack other.2 :=
        fun other among => each other (List.mem_cons_of_mem member among)
      have text : ∀ rest,
          (Json.mkObject (member :: members)).write rest
            = '\x7b' :: writeMember member (writeOthers members rest) :=
        fun rest => rfl
      refine ⟨fun rest => ⟨'\x7b', _, text rest, rfl, by decide, ?_⟩, fun fuel rest _ enough => ?_⟩
      · have here := length_lt_writeMember member (writeOthers members rest)
        have value := first.length_lt (writeOthers members rest)
        have later := length_lt_writeOthers others rest
        omega
      · rw [text, List.length_cons] at enough
        have read : readMembers fuel (writeMember member (writeOthers members rest)) []
            = some (.object ([].reverse
                ++ (member :: members).map fun member => (some member.1, member.2)), rest) :=
          readMembers_write first others [] (by omega)
        rw [text, readValue, skipBlanks_cons rfl]
        simp only [writeMember, skipBlanks_cons (c := '"') rfl]
        exact read

/-- Documents are read back, by induction on them. -/
theorem readBack_of_plain {json : Json} (plain : json.Plain) : json.ReadBack := by
  induction plain with
  | null => exact readBack_null
  | bool value => exact readBack_bool value
  | nat value => exact readBack_nat value
  | string text => exact readBack_string text
  | array _ ih => exact readBack_array ih
  | object _ ih => exact readBack_object ih

theorem parse?_render {json : Json} (plain : json.Plain) : parse? json.render = some json := by
  have read : readValue ((json.write []).length + 1) (json.write []) = some (json, []) :=
    (readBack_of_plain plain).reads (json.write []).length [] (.inl rfl) (Nat.le_add_right _ _)
  rw [parse?, render, String.toList_ofList, read]
  rfl

end Json

end Monadize
