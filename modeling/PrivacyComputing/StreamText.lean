import Mathlib.Algebra.Ring.Int.Defs
import Mathlib.Data.Int.Basic
import Mathlib.Data.List.Basic
import Mathlib.Data.List.TakeWhile
import Mathlib.Data.Nat.Cast.Basic
import Mathlib.Tactic.Common
import PrivacyComputing.CryptoPack

/-! Formatted text of a stream in the classic locale: `std::to_string` of an integer, and
`operator>>` of an integer, of a single character and of a word. -/
namespace PrivacyComputing.StreamText

inductive Width
  | w8 | w16 | w32 | w64
  deriving DecidableEq, Repr

structure IntType where
  signed : Bool
  width : Width
  deriving DecidableEq, Repr

def IntType.low : IntType → ℤ
  | ⟨false, _⟩ => 0
  | ⟨true, .w8⟩ => -128
  | ⟨true, .w16⟩ => -32768
  | ⟨true, .w32⟩ => -2147483648
  | ⟨true, .w64⟩ => -9223372036854775808

def IntType.high : IntType → ℤ
  | ⟨false, .w8⟩ => 255
  | ⟨false, .w16⟩ => 65535
  | ⟨false, .w32⟩ => 4294967295
  | ⟨false, .w64⟩ => 18446744073709551615
  | ⟨true, .w8⟩ => 127
  | ⟨true, .w16⟩ => 32767
  | ⟨true, .w32⟩ => 2147483647
  | ⟨true, .w64⟩ => 9223372036854775807

def IntType.Holds (T : IntType) (n : ℤ) : Prop := T.low ≤ n ∧ n ≤ T.high

instance (T : IntType) (n : ℤ) : Decidable (T.Holds n) :=
  inferInstanceAs (Decidable (_ ∧ _))

def isSpace (c : UInt8) : Bool := c == 32 || (9 ≤ c && c ≤ 13)

def isDigit (c : UInt8) : Bool := 48 ≤ c && c ≤ 57

def natText (n : ℕ) : Bytes := (Nat.toDigits 10 n).map fun c => UInt8.ofNat c.toNat

/-- `std::to_string`. -/
def toText (n : ℤ) : Bytes := if n < 0 then 45 :: natText n.natAbs else natText n.natAbs

def digitsValue (digits : Bytes) : ℕ := digits.foldl (fun v c => 10 * v + (c.toNat - 48)) 0

/-- The value that is stored, whether the extraction failed, and what is left to read. -/
structure Extracted where
  value : ℤ
  fail : Bool
  rest : Bytes
  deriving DecidableEq, Repr

/-- What the digits that were read store: a value out of range is replaced by the nearest one, and
a negative one is taken modulo the range of an unsigned type. -/
def storeDigits (T : IntType) (negative : Bool) (digits rest : Bytes) : Extracted :=
  let magnitude : ℤ := digitsValue digits
  let v := if negative then -magnitude else magnitude
  if digits.isEmpty then ⟨0, true, rest⟩
  else if T.signed then
    if v < T.low then ⟨T.low, true, rest⟩
    else if T.high < v then ⟨T.high, true, rest⟩
    else ⟨v, false, rest⟩
  else if T.high < magnitude then ⟨T.high, true, rest⟩
  else ⟨v % (T.high + 1), false, rest⟩

/-- An integer of 16 bits or more. -/
def extractInteger (T : IntType) (text : Bytes) : Extracted :=
  let text := text.dropWhile isSpace
  let negative := text.head? == some 45
  let text := if negative || text.head? == some 43 then text.tail else text
  storeDigits T negative (text.takeWhile isDigit) (text.dropWhile isDigit)

/-- The next character after white space; at the end nothing is stored. -/
def extractChar (text : Bytes) : Option UInt8 := (text.dropWhile isSpace).head?

/-- A string without white space, with the state of the stream after it. -/
structure Word where
  text : Bytes
  failbit : Bool
  eofbit : Bool
  deriving DecidableEq, Repr

def extractWord (text : Bytes) : Word :=
  let text := text.dropWhile isSpace
  if text.isEmpty then ⟨[], true, true⟩
  else ⟨text.takeWhile fun c => !isSpace c, false, (text.dropWhile fun c => !isSpace c).isEmpty⟩

section Digits

theorem isDigit_iff (c : UInt8) : isDigit c = true ↔ 48 ≤ c.toNat ∧ c.toNat ≤ 57 := by
  simp only [isDigit, Bool.and_eq_true, decide_eq_true_eq, UInt8.le_iff_toNat_le,
    UInt8.reduceToNat]

theorem isSpace_eq_false {c : UInt8} (h : 33 ≤ c.toNat) : isSpace c = false := by
  simp only [isSpace, Bool.or_eq_false_iff, beq_eq_false_iff_ne, ne_eq, Bool.and_eq_false_iff,
    decide_eq_false_iff_not, UInt8.le_iff_toNat_le, UInt8.reduceToNat, ← UInt8.toNat_inj]
  omega

theorem natText_ne_nil (n : ℕ) : natText n ≠ [] := by
  simp [natText]

theorem digit_code {n : ℕ} {c : Char} (h : c ∈ Nat.toDigits 10 n) :
    (UInt8.ofNat c.toNat).toNat = c.toNat ∧ 48 ≤ c.toNat ∧ c.toNat ≤ 57 := by
  have hdigit := Nat.isDigit_of_mem_toDigits (by decide) (by decide) h
  rw [Char.isDigit_iff_toNat] at hdigit
  have hlow : 48 ≤ c.toNat := hdigit.1
  have hhigh : c.toNat ≤ 57 := hdigit.2
  refine ⟨?_, hlow, hhigh⟩
  rw [UInt8.toNat_ofNat']
  omega

theorem natText_digit {n : ℕ} {c : UInt8} (h : c ∈ natText n) : isDigit c = true := by
  obtain ⟨d, hd, rfl⟩ := List.mem_map.mp h
  obtain ⟨hcode, hlow, hhigh⟩ := digit_code hd
  rw [isDigit_iff, hcode]
  exact ⟨hlow, hhigh⟩

theorem digitsValue_natText (n : ℕ) : digitsValue (natText n) = n := by
  have hfold : digitsValue (natText n) = Nat.ofDigitChars 10 (Nat.toDigits 10 n) 0 := by
    rw [digitsValue, natText, List.foldl_map, Nat.ofDigitChars_eq_foldl]
    refine List.foldl_ext _ _ _ fun v c hc => ?_
    rw [(digit_code hc).1]
    rfl
  rw [hfold, Nat.ofDigitChars_toDigits (by decide) (by decide)]

theorem not_space_of_digit {c : UInt8} (h : isDigit c = true) : isSpace c = false := by
  rw [isDigit_iff] at h
  exact isSpace_eq_false (by omega)

/-- Neither a sign nor white space is a digit. -/
theorem natText_cons (n : ℕ) : ∃ c rest, natText n = c :: rest ∧ isDigit c = true ∧
    c ≠ 45 ∧ c ≠ 43 := by
  obtain ⟨c, rest, hcons⟩ := List.exists_cons_of_ne_nil (natText_ne_nil n)
  have hdigit := natText_digit (n := n) (c := c) (by rw [hcons]; exact List.mem_cons_self)
  refine ⟨c, rest, hcons, hdigit, ?_, ?_⟩
  · rintro rfl
    exact absurd hdigit (by decide)
  · rintro rfl
    exact absurd hdigit (by decide)

theorem dropWhile_space_toText (n : ℤ) : (toText n).dropWhile isSpace = toText n := by
  unfold toText
  split_ifs
  · rw [List.dropWhile_cons_of_neg (by decide)]
  · obtain ⟨c, rest, hcons, hdigit, -⟩ := natText_cons n.natAbs
    rw [hcons, List.dropWhile_cons_of_neg (by simp [not_space_of_digit hdigit])]

theorem takeWhile_digit_natText (n : ℕ) : (natText n).takeWhile isDigit = natText n :=
  List.takeWhile_eq_self_iff.mpr fun _ h => natText_digit h

theorem dropWhile_digit_natText (n : ℕ) : (natText n).dropWhile isDigit = [] :=
  List.dropWhile_eq_nil_iff.mpr fun _ h => natText_digit h

end Digits
section Extraction

theorem low_le_high (T : IntType) : T.low ≤ 0 ∧ 0 ≤ T.high := by
  obtain ⟨signed, width⟩ := T
  cases signed <;> cases width <;> decide

theorem low_of_unsigned {T : IntType} (h : ¬ T.signed = true) : T.low = 0 := by
  obtain ⟨signed, width⟩ := T
  cases signed with
  | true => exact absurd rfl h
  | false => rfl

theorem holds_emod {T : IntType} (h : ¬ T.signed = true) (v : ℤ) : T.Holds (v % (T.high + 1)) := by
  have hhigh := (low_le_high T).2
  have hnonneg := Int.emod_nonneg v (show T.high + 1 ≠ 0 by omega)
  have hlt := Int.emod_lt_of_pos v (show 0 < T.high + 1 by omega)
  rw [IntType.Holds, low_of_unsigned h]
  omega

theorem storeDigits_holds (T : IntType) (negative : Bool) (digits rest : Bytes) :
    T.Holds (storeDigits T negative digits rest).value := by
  have hzero := low_le_high T
  simp only [storeDigits]
  generalize (if negative = true then _ else _ : ℤ) = v
  split_ifs with hempty hsigned hlow hhigh hlarge
  · exact hzero
  · exact ⟨Int.le_refl _, Int.le_trans hzero.1 hzero.2⟩
  · exact ⟨Int.le_trans hzero.1 hzero.2, Int.le_refl _⟩
  · exact ⟨Int.not_lt.mp hlow, Int.not_lt.mp hhigh⟩
  · exact ⟨Int.le_trans hzero.1 hzero.2, Int.le_refl _⟩
  · exact holds_emod hsigned v

/-- Whatever the text is, the stored value is one of the type. -/
theorem extractInteger_holds (T : IntType) (text : Bytes) :
    T.Holds (extractInteger T text).value :=
  storeDigits_holds T _ _ _

/-- Digits of a number of the type. -/
theorem storeDigits_natText {T : IntType} {n : ℤ} (h : T.Holds n) :
    storeDigits T (decide (n < 0)) (natText n.natAbs) [] = ⟨n, false, []⟩ := by
  obtain ⟨hlow, hhigh⟩ := h
  have hempty : (natText n.natAbs).isEmpty = false :=
    List.isEmpty_eq_false_iff.mpr (natText_ne_nil n.natAbs)
  have hvalue : (if decide (n < 0) = true then -((n.natAbs : ℕ) : ℤ) else (n.natAbs : ℕ)) = n := by
    split_ifs with hneg
    · rw [decide_eq_true_iff] at hneg
      omega
    · rw [decide_eq_true_iff] at hneg
      omega
  simp only [storeDigits, digitsValue_natText, hvalue, hempty, Bool.false_eq_true, if_false]
  by_cases hsigned : T.signed = true
  · rw [if_pos hsigned, if_neg (Int.not_lt.mpr hlow), if_neg (Int.not_lt.mpr hhigh)]
  · rw [low_of_unsigned hsigned] at hlow
    have habs : ¬ T.high < ((n.natAbs : ℕ) : ℤ) := by omega
    have hmod : n % (T.high + 1) = n := Int.emod_eq_of_lt hlow (by omega)
    rw [if_neg hsigned, if_neg habs, hmod]

/-- What was written is read back. -/
theorem extractInteger_toText {T : IntType} {n : ℤ} (h : T.Holds n) :
    extractInteger T (toText n) = ⟨n, false, []⟩ := by
  have hstore := storeDigits_natText h
  unfold extractInteger
  rw [dropWhile_space_toText]
  by_cases hneg : n < 0
  · have htext : toText n = 45 :: natText n.natAbs := if_pos hneg
    rw [decide_eq_true hneg] at hstore
    simp [htext, takeWhile_digit_natText, dropWhile_digit_natText, hstore]
  · have htext : toText n = natText n.natAbs := if_neg hneg
    obtain ⟨c, rest, hcons, -, hminus, hplus⟩ := natText_cons n.natAbs
    have hhead : (natText n.natAbs).head? = some c := by rw [hcons]; rfl
    have hsign : (c == 45) = false := by simp [hminus]
    rw [decide_eq_false hneg] at hstore
    simp [htext, hhead, hsign, hplus, takeWhile_digit_natText, dropWhile_digit_natText,
      hstore]

theorem extractWord_nil : extractWord [] = ⟨[], true, true⟩ := rfl

theorem extractWord_of_no_space {text : Bytes} (hne : text ≠ [])
    (h : ∀ c ∈ text, isSpace c = false) : extractWord text = ⟨text, false, true⟩ := by
  have hdrop : text.dropWhile isSpace = text := by
    cases text with
    | nil => rfl
    | cons c rest =>
      rw [List.dropWhile_cons_of_neg (by simp [h c List.mem_cons_self])]
  have htake : text.takeWhile (fun c => !isSpace c) = text :=
    List.takeWhile_eq_self_iff.mpr fun c hc => by rw [h c hc]; rfl
  have hrest : text.dropWhile (fun c => !isSpace c) = [] :=
    List.dropWhile_eq_nil_iff.mpr fun c hc => by rw [h c hc]; rfl
  have hempty : text.isEmpty = false := List.isEmpty_eq_false_iff.mpr hne
  simp [extractWord, hdrop, hempty, htake, hrest]

theorem natText_of_lt_ten {n : ℕ} (h : n < 10) : natText n = [UInt8.ofNat (48 + n)] := by
  rw [natText, Nat.toDigits_of_lt_base h, List.map_singleton, Nat.toNat_digitChar_of_lt_ten h]

theorem natText_of_ten_le {n : ℕ} (h : 10 ≤ n) :
    natText n = natText (n / 10) ++ [UInt8.ofNat (48 + n % 10)] := by
  rw [natText, Nat.toDigits_of_base_le (by decide) h, List.map_append, List.map_singleton,
    Nat.toNat_digitChar_of_lt_ten (Nat.mod_lt n (by decide))]
  rfl

/-- The first digit of a number of at most three digits. -/
theorem head_natText {n : ℕ} (h : n < 1000) : (natText n).head? =
    some (UInt8.ofNat (48 + if n < 10 then n else if n < 100 then n / 10 else n / 100)) := by
  split_ifs with hten hhundred
  · rw [natText_of_lt_ten hten]
    rfl
  · rw [natText_of_ten_le (by omega), natText_of_lt_ten (by omega)]
    rfl
  · rw [natText_of_ten_le (by omega), natText_of_ten_le (by omega), natText_of_lt_ten (by omega),
      Nat.div_div_eq_div_mul]
    rfl

/-- An integer of 8 bits is its own first character only when it is 53, the code of the digit
five. -/
theorem extractChar_toText_iff {n : ℤ} (hlow : -128 ≤ n) (hhigh : n ≤ 255) :
    (extractChar (toText n)).map (fun c => (c.toNat : ℤ)) = some n ↔ n = 53 := by
  rw [extractChar, dropWhile_space_toText]
  by_cases hneg : n < 0
  · have htext : toText n = 45 :: natText n.natAbs := if_pos hneg
    rw [htext, List.head?_cons, Option.map_some, Option.some.injEq]
    have hminus : ((45 : UInt8).toNat : ℤ) = 45 := rfl
    omega
  · have htext : toText n = natText n.natAbs := if_neg hneg
    rw [htext, head_natText (by omega), Option.map_some, Option.some.injEq, UInt8.toNat_ofNat']
    split_ifs <;> omega

/-- The first character is a sign or a digit. -/
theorem extractChar_toText (n : ℤ) : ∃ c, extractChar (toText n) = some c ∧ c.toNat ≤ 57 := by
  rw [extractChar, dropWhile_space_toText]
  by_cases hneg : n < 0
  · have htext : toText n = 45 :: natText n.natAbs := if_pos hneg
    exact ⟨45, by rw [htext, List.head?_cons], by decide⟩
  · have htext : toText n = natText n.natAbs := if_neg hneg
    obtain ⟨c, rest, hcons, hdigit, -⟩ := natText_cons n.natAbs
    rw [isDigit_iff] at hdigit
    exact ⟨c, by rw [htext, hcons, List.head?_cons], hdigit.2⟩

end Extraction
end PrivacyComputing.StreamText
