import Mathlib.Algebra.Order.Ring.Int
import PrivacyComputing.StreamText

/-! Columns of a CSV line: quote and trim policies, `parse_line` with its column order, and the
integers of a column with the overflow policies. A line is the memory from a `char*` on: it ends
at its first zero byte, and the end of the list stands for one. -/
namespace PrivacyComputing.CsvColumns
open StreamText

inductive CsvError
  | tooFewColumns
  | tooManyColumns
  | escapedStringNotClosed
  | noDigit
  | integerOverflow
  | integerUnderflow
  | invalidSingleCharacter
  | lineLengthLimitExceeded
  deriving DecidableEq, Repr

/-- `trim_chars`. -/
def trim (isTrimChar : UInt8 → Bool) (col : Bytes) : Bytes :=
  ((col.dropWhile isTrimChar).reverse.dropWhile isTrimChar).reverse

/-- A column and what stands in the line from its end on, and the text that a column is for. -/
structure QuotePolicy where
  findNextColumnEnd : Bytes → Except CsvError (Bytes × Bytes)
  unescape : Bytes → Bytes

def noQuoteEscape (sep : UInt8) : QuotePolicy where
  findNextColumnEnd line :=
    .ok (line.takeWhile fun c => c != sep && c != 0, line.dropWhile fun c => c != sep && c != 0)
  unescape col := col

/-- The scan of `double_quote_escape`, outside and inside of quotes. A quote right behind a closing
one opens again. -/
def scanQuotes (sep quote : UInt8) : (inside : Bool) → Bytes → Except CsvError (Bytes × Bytes)
  | false, [] => .ok ([], [])
  | true, [] => .error .escapedStringNotClosed
  | false, c :: line =>
    if c = sep ∨ c = 0 then .ok ([], c :: line)
    else do
      let (col, rest) ← scanQuotes sep quote (c == quote) line
      return (c :: col, rest)
  | true, c :: line =>
    if c ≠ quote ∧ c = 0 then .error .escapedStringNotClosed
    else do
      let (col, rest) ← scanQuotes sep quote (c != quote) line
      return (c :: col, rest)

/-- Two quotes become one. -/
def collapse (quote : UInt8) : Bytes → Bytes
  | c :: c' :: col =>
    if c = quote ∧ c' = quote then c' :: collapse quote col else c :: collapse quote (c' :: col)
  | col => col

def unescapeQuotes (quote : UInt8) (col : Bytes) : Bytes :=
  if col.length ≥ 2 ∧ col.head? = some quote ∧ col.getLast? = some quote then
    collapse quote (col.drop 1).dropLast
  else col

def doubleQuoteEscape (sep quote : UInt8) : QuotePolicy where
  findNextColumnEnd := scanQuotes sep quote false
  unescape := unescapeQuotes quote

section Line
variable (isTrimChar : UInt8 → Bool) (quotePolicy : QuotePolicy)

/-- The next column, and the line behind the separator: a null pointer at the end. -/
def chopNextColumn (line : Bytes) : Except CsvError (Bytes × Option Bytes) := do
  let (col, rest) ← quotePolicy.findNextColumnEnd line
  return (col, if rest.headD 0 = 0 then none else some rest.tail)

/-- `sorted_col`: the text of each column that is asked for. -/
abbrev Row := List (Option Bytes)

/-- The loop over `col_order`, in which -1 stands for a column to skip. -/
def parseColumns : (colOrder : List ℤ) → (line : Option Bytes) → Row →
    Except CsvError (Option Bytes × Row)
  | [], line, row => .ok (line, row)
  | _ :: _, none, _ => .error .tooFewColumns
  | i :: colOrder, some line, row => do
    let (col, line) ← chopNextColumn quotePolicy line
    if i ≠ -1 then
      parseColumns colOrder line
        (row.set i.toNat (some (quotePolicy.unescape (trim isTrimChar col))))
    else parseColumns colOrder line row

def parseLine (line : Bytes) (colOrder : List ℤ) (row : Row) : Except CsvError Row := do
  let (line, row) ← parseColumns isTrimChar quotePolicy colOrder (some line) row
  if line ≠ none then .error .tooManyColumns else return row

end Line

/-- What an overflow policy makes of the value so far. -/
structure OverflowPolicy where
  onOverflow : IntType → ℤ → Except CsvError ℤ
  onUnderflow : IntType → ℤ → Except CsvError ℤ

def throwOnOverflow : OverflowPolicy where
  onOverflow _ _ := .error .integerOverflow
  onUnderflow _ _ := .error .integerUnderflow

def setToMaxOnOverflow : OverflowPolicy where
  onOverflow T _ := .ok T.high
  onUnderflow T _ := .ok T.low

def digit (c : UInt8) : ℤ := (c.toNat - 48 : ℕ)

section Integers
variable (policy : OverflowPolicy) (T : IntType)

/-- The loop of `parse_unsigned_integer`. -/
def addDigits : Bytes → ℤ → Except CsvError ℤ
  | [], x => .ok x
  | c :: col, x =>
    if isDigit c then
      if x > (T.high - digit c).tdiv 10 then policy.onOverflow T x
      else addDigits col (10 * x + digit c)
    else .error .noDigit

/-- The loop behind a minus sign. The quotient of two `int` is rounded towards zero. -/
def subDigits : Bytes → ℤ → Except CsvError ℤ
  | [], x => .ok x
  | c :: col, x =>
    if isDigit c then
      if x < (T.low + digit c).tdiv 10 then policy.onUnderflow T x
      else subDigits col (10 * x - digit c)
    else .error .noDigit

def parseUnsignedInteger (col : Bytes) : Except CsvError ℤ := addDigits policy T col 0

def parseSignedInteger (col : Bytes) : Except CsvError ℤ :=
  if col.head? = some 45 then subDigits policy T col.tail 0
  else parseUnsignedInteger policy T (if col.head? = some 43 then col.tail else col)

def parseInteger (col : Bytes) : Except CsvError ℤ :=
  if T.signed then parseSignedInteger policy T col else parseUnsignedInteger policy T col

end Integers

/-- `parse` of a `char`. -/
def parseChar : Bytes → Except CsvError UInt8
  | [c] => .ok c
  | _ => .error .invalidSingleCharacter

section Digits
variable {policy : OverflowPolicy} {T : IntType}

/-- The number that digits continue `x` to. -/
def continueWith (x : ℤ) (digits : Bytes) : ℤ := digits.foldl (fun v c => 10 * v + digit c) x

theorem digit_bounds {c : UInt8} (h : isDigit c = true) : 0 ≤ digit c ∧ digit c ≤ 9 := by
  rw [isDigit_iff] at h
  unfold digit
  omega

theorem continueWith_cons (x : ℤ) (c : UInt8) (digits : Bytes) :
    continueWith x (c :: digits) = continueWith (10 * x + digit c) digits := rfl

theorem continueWith_zero (digits : Bytes) : continueWith 0 digits = digitsValue digits := by
  have hall : ∀ n : ℕ, continueWith n digits =
      (digits.foldl (fun v c => 10 * v + (c.toNat - 48)) n : ℕ) := by
    induction digits with
    | nil =>
      intro n
      rfl
    | cons c digits ih =>
      intro n
      have hstep := ih (10 * n + (c.toNat - 48))
      rw [continueWith_cons, List.foldl_cons, ← hstep]
      congr 1
  exact hall 0

theorem le_continueWith {x : ℤ} (hx : 0 ≤ x) {digits : Bytes}
    (h : ∀ c ∈ digits, isDigit c = true) : x ≤ continueWith x digits := by
  induction digits generalizing x with
  | nil => exact le_rfl
  | cons c digits ih =>
    have hc := digit_bounds (h c List.mem_cons_self)
    have hrest := ih (x := 10 * x + digit c) (by omega) fun d hd => h d (List.mem_cons_of_mem _ hd)
    rw [continueWith_cons]
    omega

theorem high_bounds (T : IntType) : 9 ≤ T.high := by
  obtain ⟨signed, width⟩ := T
  cases signed <;> cases width <;> decide

theorem low_bounds (h : T.signed = true) : T.low ≤ -9 := by
  obtain ⟨signed, width⟩ := T
  cases h
  cases width <;> decide

theorem low_nonpos (T : IntType) : T.low ≤ 0 := by
  obtain ⟨signed, width⟩ := T
  cases signed <;> cases width <;> decide

/-- The comparison before the multiplication is the one that the product would need. -/
theorem overflow_iff {x y : ℤ} (hy : 0 ≤ y ∧ y ≤ 9) :
    x > (T.high - y).tdiv 10 ↔ T.high < 10 * x + y := by
  have hhigh := high_bounds T
  rw [Int.tdiv_eq_ediv_of_nonneg (by omega)]
  omega

theorem underflow_iff (hT : T.signed = true) {x y : ℤ} (hy : 0 ≤ y ∧ y ≤ 9) :
    x < (T.low + y).tdiv 10 ↔ 10 * x - y < T.low := by
  have hlow := low_bounds hT
  have hneg : (T.low + y).tdiv 10 = -((-(T.low + y)).tdiv 10) := by
    rw [Int.neg_tdiv, neg_neg]
  rw [hneg, Int.tdiv_eq_ediv_of_nonneg (by omega)]
  omega

/-- Both loops, on the size of the number: the digits up to `limit`, or the value at which the next
digit would exceed it, or nothing when a character is no digit. -/
def scanDigits (limit : ℤ) : Bytes → ℤ → Except (Option ℤ) ℤ
  | [], x => .ok x
  | c :: col, x =>
    if isDigit c then
      if limit < 10 * x + digit c then .error (some x) else scanDigits limit col (10 * x + digit c)
    else .error none

theorem addDigits_eq (col : Bytes) (x : ℤ) : addDigits policy T col x =
    match scanDigits T.high col x with
    | .ok v => .ok v
    | .error (some y) => policy.onOverflow T y
    | .error none => .error .noDigit := by
  induction col generalizing x with
  | nil => rfl
  | cons c col ih =>
    by_cases hc : isDigit c = true
    · have hover : x > (T.high - digit c).tdiv 10 ↔ T.high < 10 * x + digit c :=
        overflow_iff (digit_bounds hc)
      simp only [addDigits, scanDigits, hc, if_true]
      by_cases hlarge : T.high < 10 * x + digit c
      · rw [if_pos (hover.mpr hlarge), if_pos hlarge]
      · rw [if_neg (fun h => hlarge (hover.mp h)), if_neg hlarge]
        exact ih _
    · simp [addDigits, scanDigits, hc]

theorem subDigits_eq (policy : OverflowPolicy) (hT : T.signed = true) (col : Bytes) (x : ℤ) :
    subDigits policy T col (-x) =
      match scanDigits (-T.low) col x with
      | .ok v => .ok (-v)
      | .error (some y) => policy.onUnderflow T (-y)
      | .error none => .error .noDigit := by
  induction col generalizing x with
  | nil => rfl
  | cons c col ih =>
    by_cases hc : isDigit c = true
    · have hunder : -x < (T.low + digit c).tdiv 10 ↔ 10 * -x - digit c < T.low :=
        underflow_iff hT (digit_bounds hc)
      have hnext : 10 * -x - digit c = -(10 * x + digit c) := by omega
      simp only [subDigits, scanDigits, hc, if_true]
      by_cases hlarge : -T.low < 10 * x + digit c
      · rw [if_pos (hunder.mpr (by omega)), if_pos hlarge]
      · rw [if_neg (fun h => hlarge (by have hlt := hunder.mp h; omega)), if_neg hlarge, ← ih,
          ← hnext]
    · simp [subDigits, scanDigits, hc]

/-- A scan succeeds on digits whose number keeps to the limit; on other digits it stops on the
way, and it complains about another character only while the digits before it keep to it. -/
theorem scanDigits_eq {limit x : ℤ} (hx : 0 ≤ x) (hlimit : x ≤ limit) (col : Bytes) :
    (limit < continueWith x (col.takeWhile isDigit) →
      ∃ y, scanDigits limit col x = .error (some y)) ∧
    (continueWith x (col.takeWhile isDigit) ≤ limit → scanDigits limit col x =
      if col.all isDigit then .ok (continueWith x col) else .error none) := by
  induction col generalizing x with
  | nil =>
    constructor
    · intro h
      simp only [List.takeWhile_nil, continueWith, List.foldl_nil] at h
      omega
    · intro _
      rfl
  | cons c col ih =>
    by_cases hc : isDigit c = true
    · have hbounds := digit_bounds hc
      have hgrow := @le_continueWith (10 * x + digit c) (by omega) (col.takeWhile isDigit)
        fun d hd => List.mem_takeWhile_imp hd
      rw [List.takeWhile_cons_of_pos hc, continueWith_cons]
      simp only [scanDigits, hc, if_true, List.all_cons, Bool.true_and, continueWith_cons]
      by_cases hlarge : limit < 10 * x + digit c
      · rw [if_pos hlarge]
        constructor
        · intro _
          exact ⟨x, rfl⟩
        · intro h
          omega
      · rw [if_neg hlarge]
        exact ih (by omega) (by omega)
    · rw [List.takeWhile_cons_of_neg hc]
      constructor
      · intro h
        simp only [continueWith, List.foldl_nil] at h
        omega
      · intro _
        simp [scanDigits, hc]

/-- An optional sign, if the type has one, and digits. There may be none of them. -/
def Numeral (T : IntType) (col : Bytes) (v : ℤ) : Prop :=
  ∃ digits : Bytes, digits.all isDigit = true ∧
    (col = digits ∧ v = digitsValue digits ∨
      T.signed = true ∧ col = 43 :: digits ∧ v = digitsValue digits ∨
      T.signed = true ∧ col = 45 :: digits ∧ v = -digitsValue digits)

theorem parseDigits_spec (limit : ℤ) (hlimit : 0 ≤ limit) {digits : Bytes}
    (h : digits.all isDigit = true) :
    (limit < digitsValue digits → ∃ y, scanDigits limit digits 0 = .error (some y)) ∧
    (digitsValue digits ≤ limit → scanDigits limit digits 0 = .ok (digitsValue digits : ℤ)) := by
  have htake : digits.takeWhile isDigit = digits :=
    List.takeWhile_eq_self_iff.mpr (List.all_eq_true.mp h)
  have hscan := scanDigits_eq le_rfl hlimit digits
  rw [htake, continueWith_zero] at hscan
  simp only [h, if_true] at hscan
  exact hscan

theorem scanDigits_ok {limit : ℤ} (hlimit : 0 ≤ limit) {col : Bytes} {v : ℤ}
    (h : scanDigits limit col 0 = .ok v) :
    col.all isDigit = true ∧ v = digitsValue col ∧ v ≤ limit := by
  obtain ⟨hover, hfits⟩ := scanDigits_eq le_rfl hlimit col
  by_cases hlarge : limit < continueWith 0 (col.takeWhile isDigit)
  · obtain ⟨y, hy⟩ := hover hlarge
    rw [hy] at h
    cases h
  · have heq := hfits (by omega)
    rw [h] at heq
    by_cases hall : col.all isDigit = true
    · rw [if_pos hall] at heq
      have htake : col.takeWhile isDigit = col :=
        List.takeWhile_eq_self_iff.mpr (List.all_eq_true.mp hall)
      rw [htake] at hlarge
      cases heq
      exact ⟨hall, continueWith_zero col, by omega⟩
    · rw [if_neg hall] at heq
      cases heq

/-- What an integer column is read as: by way of its sign and the scan of its digits. -/
theorem parseInteger_numeral (policy : OverflowPolicy) {v : ℤ} {col : Bytes} (h : Numeral T col v) :
    (v < T.low → ∃ y, parseInteger policy T col = policy.onUnderflow T y) ∧
    (T.high < v → ∃ y, parseInteger policy T col = policy.onOverflow T y) ∧
    (T.Holds v → parseInteger policy T col = .ok v) := by
  have hhigh := high_bounds T
  have hlowzero := low_nonpos T
  -- without a minus sign the digits are added up
  have hadd : ∀ digits : Bytes, digits.all isDigit = true → v = digitsValue digits →
      parseInteger policy T col = addDigits policy T digits 0 →
      (v < T.low → ∃ y, parseInteger policy T col = policy.onUnderflow T y) ∧
      (T.high < v → ∃ y, parseInteger policy T col = policy.onOverflow T y) ∧
      (T.Holds v → parseInteger policy T col = .ok v) := by
    intro digits hdigits hv hparse
    obtain ⟨hover, hfits⟩ := parseDigits_spec T.high (by omega) hdigits
    rw [hparse, addDigits_eq]
    refine ⟨fun hlow => by omega, fun hlarge => ?_, fun hholds => ?_⟩
    · obtain ⟨y, hy⟩ := hover (by omega)
      exact ⟨y, by rw [hy]⟩
    · rw [hfits (by rw [← hv]; exact hholds.2), hv]
  obtain ⟨digits, hdigits, ⟨rfl, hv⟩ | ⟨hT, rfl, hv⟩ | ⟨hT, rfl, hv⟩⟩ := h
  · apply hadd col hdigits hv
    have hsign : col.head? ≠ some 45 ∧ col.head? ≠ some 43 := by
      cases col with
      | nil => simp
      | cons c rest =>
        have hc := List.all_eq_true.mp hdigits c List.mem_cons_self
        constructor <;>
        · intro heq
          cases heq
          exact absurd hc (by decide)
    unfold parseInteger parseSignedInteger parseUnsignedInteger
    rw [if_neg hsign.1, if_neg hsign.2, ite_self]
  · apply hadd digits hdigits hv
    unfold parseInteger parseSignedInteger parseUnsignedInteger
    rw [if_pos hT, if_neg (by simp), if_pos (by simp)]
    rfl
  · have hlow := low_bounds hT
    obtain ⟨hover, hfits⟩ := parseDigits_spec (-T.low) (by omega) hdigits
    have hsub := subDigits_eq policy hT digits 0
    have hparse : parseInteger policy T (45 :: digits) = subDigits policy T digits (-0) := by
      unfold parseInteger parseSignedInteger
      rw [if_pos hT, if_pos (by simp)]
      rfl
    rw [hparse, hsub]
    refine ⟨fun hsmall => ?_, fun hlarge => by omega, fun hholds => ?_⟩
    · obtain ⟨y, hy⟩ := hover (by omega)
      exact ⟨-y, by rw [hy]⟩
    · rw [hfits (by have hle := hholds.1; omega), hv]

theorem numeral_of_parseInteger {v : ℤ} {col : Bytes}
    (h : parseInteger throwOnOverflow T col = .ok v) : Numeral T col v ∧ T.Holds v := by
  have hhigh := high_bounds T
  have hlowzero := low_nonpos T
  have hadd : ∀ digits : Bytes, addDigits throwOnOverflow T digits 0 = .ok v →
      digits.all isDigit = true ∧ v = digitsValue digits ∧ T.Holds v := by
    intro digits hdigits
    rw [addDigits_eq] at hdigits
    cases hscan : scanDigits T.high digits 0 with
    | ok w =>
      rw [hscan] at hdigits
      cases hdigits
      obtain ⟨hall, hvalue, hle⟩ := scanDigits_ok (by omega) hscan
      exact ⟨hall, hvalue, by omega, hle⟩
    | error y =>
      rw [hscan] at hdigits
      cases y <;> cases hdigits
  by_cases hT : T.signed = true
  · unfold parseInteger parseSignedInteger at h
    rw [if_pos hT] at h
    by_cases hminus : col.head? = some 45
    · rw [if_pos hminus] at h
      have hlow := low_bounds hT
      have hsub := subDigits_eq throwOnOverflow hT col.tail 0
      rw [neg_zero, h] at hsub
      cases hscan : scanDigits (-T.low) col.tail 0 with
      | ok w =>
        rw [hscan] at hsub
        obtain ⟨hall, hvalue, hle⟩ := scanDigits_ok (by omega) hscan
        have hv : v = -w := Except.ok.inj hsub
        refine ⟨⟨col.tail, hall, Or.inr (Or.inr ⟨hT, ?_, by rw [hv, hvalue]⟩)⟩, by omega, ?_⟩
        · cases col with
          | nil => cases hminus
          | cons c rest =>
            cases hminus
            rfl
        · omega
      | error y =>
        rw [hscan] at hsub
        cases y <;> cases hsub
    · rw [if_neg hminus] at h
      unfold parseUnsignedInteger at h
      by_cases hplus : col.head? = some 43
      · rw [if_pos hplus] at h
        obtain ⟨hall, hvalue, hholds⟩ := hadd _ h
        refine ⟨⟨col.tail, hall, Or.inr (Or.inl ⟨hT, ?_, hvalue⟩)⟩, hholds⟩
        cases col with
        | nil => cases hplus
        | cons c rest =>
          cases hplus
          rfl
      · rw [if_neg hplus] at h
        obtain ⟨hall, hvalue, hholds⟩ := hadd _ h
        exact ⟨⟨col, hall, Or.inl ⟨rfl, hvalue⟩⟩, hholds⟩
  · unfold parseInteger parseUnsignedInteger at h
    rw [if_neg hT] at h
    obtain ⟨hall, hvalue, hholds⟩ := hadd _ h
    exact ⟨⟨col, hall, Or.inl ⟨rfl, hvalue⟩⟩, hholds⟩

/-- What `std::to_string` writes is read as the same integer. -/
theorem parseInteger_toText {n : ℤ} (h : T.Holds n) : parseInteger policy T (toText n) = .ok n := by
  have hall : ∀ m : ℕ, (natText m).all isDigit = true := fun m =>
    List.all_eq_true.mpr fun _ hc => natText_digit hc
  apply (parseInteger_numeral policy ?_).2.2 h
  refine ⟨natText n.natAbs, hall _, ?_⟩
  unfold toText
  rw [digitsValue_natText]
  by_cases hneg : n < 0
  · rw [if_pos hneg]
    have hT : T.signed = true := by
      by_contra hunsigned
      have hzero : 0 ≤ T.low := by
        obtain ⟨signed, width⟩ := T
        cases signed
        · cases width <;> decide
        · exact absurd rfl hunsigned
      have hle := h.1
      omega
    exact Or.inr (Or.inr ⟨hT, rfl, by omega⟩)
  · rw [if_neg hneg]
    exact Or.inl ⟨rfl, by omega⟩

end Digits

section Lines
variable {isTrimChar : UInt8 → Bool} {quotePolicy : QuotePolicy} {sep quote : UInt8}

/-- The texts of the columns go where `col_order` sends them. -/
def assign : List (ℤ × Bytes) → Row → Row
  | [], row => row
  | (i, text) :: rest, row => assign rest (if i ≠ -1 then row.set i.toNat (some text) else row)

/-- The line, column by column, is read as `texts`. -/
inductive Columns (isTrimChar : UInt8 → Bool) (quotePolicy : QuotePolicy) :
    Option Bytes → List Bytes → Prop
  | nil : Columns isTrimChar quotePolicy none []
  | cons {line col : Bytes} {rest : Option Bytes} {texts : List Bytes}
      (chop : chopNextColumn quotePolicy line = .ok (col, rest))
      (columns : Columns isTrimChar quotePolicy rest texts) :
      Columns isTrimChar quotePolicy (some line)
        (quotePolicy.unescape (trim isTrimChar col) :: texts)

theorem parseColumns_of_columns {line : Option Bytes} {texts : List Bytes}
    (h : Columns isTrimChar quotePolicy line texts) (colOrder : List ℤ) (row : Row) :
    if texts.length < colOrder.length then
      parseColumns isTrimChar quotePolicy colOrder line row = .error .tooFewColumns
    else ∃ rest, parseColumns isTrimChar quotePolicy colOrder line row =
      .ok (rest, assign (colOrder.zip texts) row) ∧
      (rest = none ↔ texts.length = colOrder.length) := by
  induction h generalizing colOrder row with
  | nil =>
    cases colOrder with
    | nil => exact ⟨none, rfl, by simp⟩
    | cons i colOrder =>
      rw [if_pos (by simp)]
      rfl
  | @cons line col rest texts chop columns ih =>
    cases colOrder with
    | nil => exact ⟨some line, rfl, by simp⟩
    | cons i colOrder =>
      have hstep : ∀ row : Row,
          parseColumns isTrimChar quotePolicy (i :: colOrder) (some line) row =
          parseColumns isTrimChar quotePolicy colOrder rest (if i ≠ -1 then
            row.set i.toNat (some (quotePolicy.unescape (trim isTrimChar col))) else row) := by
        intro row
        simp only [parseColumns, chop]
        by_cases hi : i ≠ -1
        · simp only [if_pos hi]
          rfl
        · simp only [if_neg hi]
          rfl
      rw [hstep]
      have hnext := ih colOrder (if i ≠ -1 then
        row.set i.toNat (some (quotePolicy.unescape (trim isTrimChar col))) else row)
      by_cases hfew : texts.length < colOrder.length
      · rw [if_pos hfew] at hnext
        rw [if_pos (by simpa using hfew)]
        exact hnext
      · rw [if_neg hfew] at hnext
        rw [if_neg (by simpa using hfew)]
        obtain ⟨left, heq, hleft⟩ := hnext
        refine ⟨left, heq, ?_⟩
        rw [hleft, List.length_cons, List.length_cons, Nat.add_right_cancel_iff]

theorem parseLine_of_columns {line : Bytes} {texts : List Bytes}
    (h : Columns isTrimChar quotePolicy (some line) texts) (colOrder : List ℤ) (row : Row) :
    parseLine isTrimChar quotePolicy line colOrder row =
      if texts.length < colOrder.length then .error .tooFewColumns
      else if colOrder.length < texts.length then .error .tooManyColumns
      else .ok (assign (colOrder.zip texts) row) := by
  have hcolumns := parseColumns_of_columns h colOrder row
  unfold parseLine
  by_cases hfew : texts.length < colOrder.length
  · rw [if_pos hfew] at hcolumns ⊢
    rw [hcolumns]
    rfl
  · rw [if_neg hfew] at hcolumns ⊢
    obtain ⟨rest, heq, hrest⟩ := hcolumns
    rw [heq]
    by_cases hmany : colOrder.length < texts.length
    · have hne : rest ≠ none := fun hnone => by
        have hlen := hrest.mp hnone
        omega
      rw [if_pos hmany]
      simp only [bind, Except.bind, if_pos hne]
    · have hnone : rest = none := hrest.mpr (by omega)
      rw [if_neg hmany]
      simp only [bind, Except.bind, hnone]
      rfl

/-- The characters up to the zero byte. -/
def untilZero (line : Bytes) : Bytes := line.takeWhile (· != 0)

/-- Without quotes the columns are what stands between the separators, each one trimmed. -/
theorem columns_noQuote (line : Bytes) : Columns isTrimChar (noQuoteEscape sep) (some line)
    (((untilZero line).splitOn sep).map (trim isTrimChar)) := by
  induction h : line.length using Nat.strong_induction_on generalizing line with
  | _ n ih =>
    obtain ⟨col, hcol⟩ : ∃ col, line.takeWhile (fun c => c != sep && c != 0) = col := ⟨_, rfl⟩
    have hplain : ∀ c ∈ col, c ≠ sep ∧ c ≠ 0 := by
      intro c hc
      rw [← hcol] at hc
      simpa using List.mem_takeWhile_imp hc
    have hnosep : ∀ c ∈ col, (c == sep) = false := fun c hc => by simpa using (hplain c hc).1
    have hnozero : ∀ c ∈ col, (c != 0) = true := fun c hc => by simpa using (hplain c hc).2
    have hlast : untilZero line = col → chopNextColumn (noQuoteEscape sep) line = .ok (col, none) →
        Columns isTrimChar (noQuoteEscape sep) (some line)
          (((untilZero line).splitOn sep).map (trim isTrimChar)) := by
      intro htext hchop
      have hsplit : col.splitOn sep = [col] := by
        rw [List.splitOn_eq_splitOnP]
        exact List.splitOnP_eq_singleton hnosep
      rw [htext, hsplit]
      exact Columns.cons hchop .nil
    have happend := List.takeWhile_append_dropWhile (p := fun c => c != sep && c != 0) (l := line)
    rw [hcol] at happend
    cases hrest : line.dropWhile (fun c => c != sep && c != 0) with
    | nil =>
      rw [hrest, List.append_nil] at happend
      apply hlast
      · rw [← happend]
        exact List.takeWhile_eq_self_iff.mpr hnozero
      · simp [chopNextColumn, noQuoteEscape, hcol, hrest, bind, Except.bind, pure, Except.pure]
    | cons c rest =>
      rw [hrest] at happend
      have hc : c = sep ∨ c = 0 := by
        have hnot := List.head?_dropWhile_not (fun c => c != sep && c != 0) line
        rw [hrest] at hnot
        by_cases hsep : c = sep
        · exact Or.inl hsep
        · exact Or.inr (by simpa [hsep] using hnot)
      have htext : untilZero line = col ++ untilZero (c :: rest) := by
        unfold untilZero
        rw [← happend, List.takeWhile_append_of_pos hnozero]
      by_cases hzero : c = 0
      · subst hzero
        apply hlast
        · rw [htext]
          simp [untilZero]
        · simp [chopNextColumn, noQuoteEscape, hcol, hrest, bind, Except.bind, pure, Except.pure]
      · have hsep : c = sep := hc.resolve_right hzero
        have hmore : untilZero (c :: rest) = c :: untilZero rest :=
          List.takeWhile_cons_of_pos (by simpa using hzero)
        have hsplit : (untilZero line).splitOn sep = col :: (untilZero rest).splitOn sep := by
          rw [htext, hmore, List.splitOn_eq_splitOnP, List.splitOn_eq_splitOnP]
          exact List.splitOnP_append_cons_of_forall_mem hnosep c (by simpa using hsep) _
        rw [hsplit]
        have hlen := congrArg List.length happend
        rw [List.length_append, List.length_cons] at hlen
        have hnext := ih rest.length (by omega) rest rfl
        have hchop : chopNextColumn (noQuoteEscape sep) line = .ok (col, some rest) := by
          simp [chopNextColumn, noQuoteEscape, hcol, hrest, hzero, bind, Except.bind, pure,
            Except.pure]
        exact Columns.cons hchop hnext

/-- A line under the default policies: as many columns as are asked for, each one trimmed and sent
to its place, or an error that says on which side the number is wrong. -/
theorem parseLine_noQuote (line : Bytes) (colOrder : List ℤ) (row : Row) :
    parseLine isTrimChar (noQuoteEscape sep) line colOrder row =
      if ((untilZero line).splitOn sep).length < colOrder.length then .error .tooFewColumns
      else if colOrder.length < ((untilZero line).splitOn sep).length then .error .tooManyColumns
      else .ok (assign (colOrder.zip (((untilZero line).splitOn sep).map (trim isTrimChar)))
        row) := by
  have hcolumns : Columns isTrimChar (noQuoteEscape sep) (some line)
      (((untilZero line).splitOn sep).map (trim isTrimChar)) := columns_noQuote line
  have hline := parseLine_of_columns hcolumns colOrder row
  rw [List.length_map] at hline
  exact hline

/-! A writer for the quote policy. -/

def double (quote : UInt8) : Bytes → Bytes
  | [] => []
  | c :: field =>
    if c = quote then quote :: quote :: double quote field else c :: double quote field

def quoteField (quote : UInt8) (field : Bytes) : Bytes := quote :: (double quote field ++ [quote])

/-- A field is written in quotes, or as it is when nothing in it needs them. -/
def Written (isTrimChar : UInt8 → Bool) (sep quote : UInt8) (text field : Bytes) : Prop :=
  text = quoteField quote field ∨
    text = field ∧ quote ∉ field ∧ sep ∉ field ∧ trim isTrimChar field = field

theorem collapse_double (field : Bytes) : collapse quote (double quote field) = field := by
  induction field with
  | nil => rfl
  | cons c field ih =>
    by_cases hc : c = quote
    · simp [double, collapse, hc, ih]
    · cases hrest : double quote field with
      | nil =>
        rw [hrest] at ih
        simp only [double, if_neg hc, hrest, collapse]
        rw [← ih]
        rfl
      | cons c' rest =>
        rw [hrest] at ih
        simp only [double, if_neg hc, hrest, collapse]
        rw [if_neg (fun h => hc h.1), ih]

theorem unescape_quoteField (field : Bytes) :
    unescapeQuotes quote (quoteField quote field) = field := by
  have hinner : ((quoteField quote field).drop 1).dropLast = double quote field := by
    simp [quoteField]
  unfold unescapeQuotes
  rw [if_pos, hinner, collapse_double]
  refine ⟨by simp [quoteField], rfl, ?_⟩
  rw [quoteField, ← List.cons_append, List.getLast?_append]
  rfl

/-- The scan leaves the quotes of a field at the last one of them. -/
theorem scanQuotes_double (hne : quote ≠ sep) (hnonzero : quote ≠ 0) {field : Bytes}
    (hfield : 0 ∉ field) (tail : Bytes) :
    scanQuotes sep quote true (double quote field ++ quote :: tail) = (do
      let (col, rest) ← scanQuotes sep quote false tail
      return (double quote field ++ quote :: col, rest)) := by
  induction field with
  | nil => simp [double, scanQuotes]
  | cons c field ih =>
    have hnext := ih fun h => hfield (List.mem_cons_of_mem _ h)
    by_cases hc : c = quote
    · simp only [double, hc, if_true, List.cons_append, scanQuotes, bne_self_eq_false,
        beq_self_eq_true, hnext, ne_eq, not_true, false_and, if_false, hne, hnonzero, or_self]
      cases scanQuotes sep quote false tail <;> rfl
    · have hbne : (c != quote) = true := by simpa using hc
      have hzero : c ≠ 0 := fun heq => hfield (heq ▸ List.mem_cons_self)
      simp only [double, if_neg hc, List.cons_append, scanQuotes, hbne, hnext, hzero, and_false,
        if_false]
      cases scanQuotes sep quote false tail <;> rfl

theorem scanQuotes_plain {field tail : Bytes} (hquote : quote ∉ field) (hsep : sep ∉ field)
    (hfield : 0 ∉ field) (htail : tail = [] ∨ ∃ rest, tail = sep :: rest) :
    scanQuotes sep quote false (field ++ tail) = .ok (field, tail) := by
  induction field with
  | nil =>
    rcases htail with rfl | ⟨rest, rfl⟩
    · rfl
    · simp [scanQuotes]
  | cons c field ih =>
    have hc : ¬ (c = sep ∨ c = 0) := by
      rintro (heq | heq)
      · exact hsep (heq ▸ List.mem_cons_self)
      · exact hfield (heq ▸ List.mem_cons_self)
    have hbeq : (c == quote) = false := by
      rw [beq_eq_false_iff_ne]
      intro heq
      exact hquote (heq ▸ List.mem_cons_self)
    have hnext := ih (fun h => hquote (List.mem_cons_of_mem _ h))
      (fun h => hsep (List.mem_cons_of_mem _ h)) fun h => hfield (List.mem_cons_of_mem _ h)
    rw [List.cons_append, scanQuotes, if_neg hc, hbeq, hnext]
    rfl

theorem trim_quoteField (hquote : isTrimChar quote = false) (field : Bytes) :
    trim isTrimChar (quoteField quote field) = quoteField quote field := by
  have hfirst : (quoteField quote field).dropWhile isTrimChar = quoteField quote field := by
    unfold quoteField
    exact List.dropWhile_cons_of_neg (by simp [hquote])
  have hlast : (quoteField quote field).reverse.dropWhile isTrimChar =
      (quoteField quote field).reverse := by
    unfold quoteField
    rw [List.reverse_cons, List.reverse_append, List.reverse_singleton, List.singleton_append,
      List.cons_append]
    exact List.dropWhile_cons_of_neg (by simp [hquote])
  rw [trim, hfirst, hlast, List.reverse_reverse]

theorem findNextColumnEnd_written (hne : quote ≠ sep) (hnonzero : quote ≠ 0) {text field : Bytes}
    (hfield : 0 ∉ field) (tail : Bytes) (h : Written isTrimChar sep quote text field)
    (htail : tail = [] ∨ ∃ rest, tail = sep :: rest) :
    scanQuotes sep quote false (text ++ tail) = .ok (text, tail) := by
  rcases h with rfl | ⟨rfl, hquote, hsep, -⟩
  · have hend := @scanQuotes_plain sep quote [] tail List.not_mem_nil List.not_mem_nil
      List.not_mem_nil htail
    have hinside := scanQuotes_double hne hnonzero hfield tail
    rw [List.nil_append] at hend
    rw [hend] at hinside
    rw [quoteField, List.cons_append, List.append_assoc, List.singleton_append, scanQuotes,
      if_neg (not_or.mpr ⟨hne, hnonzero⟩), beq_self_eq_true, hinside]
    rfl
  · exact scanQuotes_plain hquote hsep hfield htail

theorem unescape_written (hquote : isTrimChar quote = false) {text field : Bytes}
    (h : Written isTrimChar sep quote text field) :
    unescapeQuotes quote (trim isTrimChar text) = field := by
  rcases h with rfl | ⟨rfl, hplain, -, htrim⟩
  · rw [trim_quoteField hquote, unescape_quoteField]
  · rw [htrim]
    unfold unescapeQuotes
    rw [if_neg]
    intro hcond
    exact hplain (List.mem_of_mem_head? hcond.2.1)

theorem columns_written (hne : quote ≠ sep) (hsep : sep ≠ 0) (hnonzero : quote ≠ 0)
    (hquote : isTrimChar quote = false) {texts fields : List Bytes}
    (hfields : ∀ field ∈ fields, 0 ∉ field)
    (h : List.Forall₂ (Written isTrimChar sep quote) texts fields) (hnonempty : texts ≠ []) :
    Columns isTrimChar (doubleQuoteEscape sep quote) (some ([sep].intercalate texts)) fields := by
  induction h with
  | nil => exact absurd rfl hnonempty
  | @cons text field texts fields hwritten hrest ih =>
    have hfirst : 0 ∉ field := hfields field List.mem_cons_self
    have hfield := unescape_written hquote hwritten
    have hcons : ∀ rest line, chopNextColumn (doubleQuoteEscape sep quote) line = .ok (text, rest) →
        Columns isTrimChar (doubleQuoteEscape sep quote) rest fields →
        Columns isTrimChar (doubleQuoteEscape sep quote) (some line) (field :: fields) := by
      intro rest line hchop hcolumns
      have hall := @Columns.cons isTrimChar _ _ _ _ _ hchop hcolumns
      simp only [doubleQuoteEscape] at hall
      rw [hfield] at hall
      exact hall
    cases hrest with
    | nil =>
      have hscan := findNextColumnEnd_written hne hnonzero hfirst [] hwritten (Or.inl rfl)
      rw [List.append_nil] at hscan
      rw [List.intercalate_singleton]
      refine hcons none text ?_ .nil
      simp [chopNextColumn, doubleQuoteEscape, hscan, bind, Except.bind, pure, Except.pure]
    | @cons text' field' texts fields hwritten' hrest =>
      have hscan := findNextColumnEnd_written hne hnonzero hfirst
        (sep :: [sep].intercalate (text' :: texts)) hwritten (Or.inr ⟨_, rfl⟩)
      have hmore := ih (fun g hg => hfields g (List.mem_cons_of_mem _ hg)) (by simp)
      rw [List.intercalate_cons_cons, List.append_assoc, List.singleton_append]
      refine hcons (some ([sep].intercalate (text' :: texts))) _ ?_ hmore
      simp [chopNextColumn, doubleQuoteEscape, hscan, hsep, bind, Except.bind, pure, Except.pure]

end Lines

end PrivacyComputing.CsvColumns
