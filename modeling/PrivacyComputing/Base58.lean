import Mathlib.Algebra.Ring.Nat
import Mathlib.Algebra.Ring.Int.Defs
import Mathlib.Data.List.TakeWhile
import PrivacyComputing.CryptoPack
import PrivacyComputing.RadixConvert

/-! The base58 form of `bytes`: `encode_base58` and `decode_base58` with the digit buffers they
allocate, and the conversions of `as` on top of them. A failed assertion and a rejected buffer
length are results of their own, apart from a `false`. -/
namespace PrivacyComputing.Base58
open RadixConvert

inductive Failure
  | assertion
  | lengthError
  | invalid
  deriving DecidableEq, Repr

/-- All alphanumeric characters except for 0, I, O and l. -/
def pszBase58 : Bytes :=
  [49, 50, 51, 52, 53, 54, 55, 56, 57, 65, 66, 67, 68, 69, 70, 71, 72, 74, 75, 76, 77, 78, 80,
  81, 82, 83, 84, 85, 86, 87, 88, 89, 90, 97, 98, 99, 100, 101, 102, 103, 104, 105, 106, 107,
  109, 110, 111, 112, 113, 114, 115, 116, 117, 118, 119, 120, 121, 122]

def mapBase58 : List ℤ := [
  -1, -1, -1, -1, -1, -1, -1, -1, -1, -1, -1, -1, -1, -1, -1, -1, -1, -1, -1, -1, -1, -1, -1, -1,
  -1, -1, -1, -1, -1, -1, -1, -1, -1, -1, -1, -1, -1, -1, -1, -1, -1, -1, -1, -1, -1, -1, -1, -1,
  -1, 0, 1, 2, 3, 4, 5, 6, 7, 8, -1, -1, -1, -1, -1, -1, -1, 9, 10, 11, 12, 13, 14, 15, 16, -1,
  17, 18, 19, 20, 21, -1, 22, 23, 24, 25, 26, 27, 28, 29, 30, 31, 32, -1, -1, -1, -1, -1, -1, 33,
  34, 35, 36, 37, 38, 39, 40, 41, 42, 43, -1, 44, 45, 46, 47, 48, 49, 50, 51, 52, 53, 54, 55, 56,
  57, -1, -1, -1, -1, -1, -1, -1, -1, -1, -1, -1, -1, -1, -1, -1, -1, -1, -1, -1, -1, -1, -1, -1,
  -1, -1, -1, -1, -1, -1, -1, -1, -1, -1, -1, -1, -1, -1, -1, -1, -1, -1, -1, -1, -1, -1, -1, -1,
  -1, -1, -1, -1, -1, -1, -1, -1, -1, -1, -1, -1, -1, -1, -1, -1, -1, -1, -1, -1, -1, -1, -1, -1,
  -1, -1, -1, -1, -1, -1, -1, -1, -1, -1, -1, -1, -1, -1, -1, -1, -1, -1, -1, -1, -1, -1, -1, -1,
  -1, -1, -1, -1, -1, -1, -1, -1, -1, -1, -1, -1, -1, -1, -1, -1, -1, -1, -1, -1, -1, -1, -1, -1,
  -1, -1, -1, -1, -1, -1, -1, -1, -1, -1, -1, -1, -1, -1]

def decodeChar (c : UInt8) : ℤ := mapBase58.getD c.toNat (-1)

def encodeChar (d : ℕ) : UInt8 := pszBase58.getD d 0

/-- `isspace` of the C locale. -/
def isspace (c : UInt8) : Bool := c == 32 || (9 ≤ c && c ≤ 13)

/-- The `int` that a length is stored in. -/
def toInt (n : ℕ) : ℤ := Int.bmod n (2 ^ 32)

/-- The zeroed buffer of an `int` size; a negative size is converted to a length no vector has. -/
def newVector (size : ℤ) : Except Failure (List ℕ) :=
  if size < 0 then .error .lengthError else .ok (List.replicate size.toNat 0)

def encodeBytes : (rest : Bytes) → (b58 : List ℕ) → (length : ℕ) → Except Failure (List ℕ × ℕ)
  | [], b58, length => .ok (b58, length)
  | c :: rest, b58, length =>
    -- the buffer is walked from its end
    let r := mulAdd 58 256 length 0 c.toNat b58.reverse
    if r.2.1 = 0 then encodeBytes rest r.1.reverse r.2.2 else .error .assertion

def encodeBase58 (b : Bytes) : Except Failure Bytes := do
  let zeroes := (b.takeWhile (· == 0)).length
  let rest := b.dropWhile (· == 0)
  let b58 ← newVector (toInt (rest.length * 138 / 100 + 1))
  let r ← encodeBytes rest b58 0
  let it := (r.1.drop (r.1.length - r.2)).dropWhile (· == 0)
  return List.replicate zeroes 49 ++ it.map encodeChar

/-- The digits up to a space or the end of the string, and what is left of the string. -/
def decodeChars : (psz : Bytes) → (b256 : List ℕ) → (length : ℕ) →
    Except Failure (Bytes × List ℕ × ℕ)
  | [], b256, length => .ok ([], b256, length)
  | c :: psz, b256, length =>
    if isspace c then .ok (c :: psz, b256, length)
    else if decodeChar c = -1 then .error .invalid
    else
      let r := mulAdd 256 58 length 0 (decodeChar c).toNat b256.reverse
      if r.2.1 = 0 then decodeChars psz r.1.reverse r.2.2 else .error .assertion

/-- What `c_str` shows of a string to a callee that stops at a zero byte. -/
def cStr (s : Bytes) : Bytes := s.takeWhile (· != 0)

def decodeBase58 (s : Bytes) : Except Failure Bytes := do
  let psz := (cStr s).dropWhile isspace
  let zeroes := (psz.takeWhile (· == 49)).length
  let psz := psz.dropWhile (· == 49)
  let b256 ← newVector (toInt (psz.length * 733 / 1000 + 1))
  let r ← decodeChars psz b256 0
  if r.1.dropWhile isspace ≠ [] then .error .invalid
  else
    let it := (r.2.1.drop (r.2.1.length - r.2.2)).dropWhile (· == 0)
    return List.replicate zeroes 0 ++ it.map UInt8.ofNat

/-! What the codec stands for: the number that the bytes without their leading zeros spell in
base 256, written in base 58. -/

def number (b : Bytes) : ℕ := readFrom 256 0 (b.map UInt8.toNat)

/-- The characters of a number. -/
def chars (n : ℕ) : Bytes := (Nat.digits 58 n).reverse.map encodeChar

/-- One character for each leading zero byte, then the number. -/
def text (b : Bytes) : Bytes :=
  List.replicate (b.takeWhile (· == 0)).length 49 ++ chars (number (b.dropWhile (· == 0)))

/-- `as<base58_bytes>`. -/
def asBase58 (b : Bytes) : Except Failure Bytes := encodeBase58 b

/-- `as<bytes>` of a base58 text, which throws on a `false`. -/
def asRaw (s : Bytes) : Except Failure Bytes := decodeBase58 s

section Chars

theorem decodeChar_encodeChar {d : ℕ} (h : d < 58) : decodeChar (encodeChar d) = d := by
  have hall : ∀ e < 58, decodeChar (encodeChar e) = e := by decide
  exact hall d h

theorem encodeChar_decodeChar {c : UInt8} (h : decodeChar c ≠ -1) :
    (decodeChar c).toNat < 58 ∧ encodeChar (decodeChar c).toNat = c := by
  have hall : ∀ n < 256, decodeChar (UInt8.ofNat n) ≠ -1 →
      (decodeChar (UInt8.ofNat n)).toNat < 58 ∧
      encodeChar (decodeChar (UInt8.ofNat n)).toNat = UInt8.ofNat n := by decide +kernel
  have hc := hall c.toNat c.toNat_lt
  rw [UInt8.ofNat_toNat] at hc
  exact hc h

theorem encodeChar_plain {d : ℕ} (h : d < 58) :
    isspace (encodeChar d) = false ∧ encodeChar d ≠ 0 ∧ (encodeChar d = 49 → d = 0) := by
  have hall : ∀ e < 58, isspace (encodeChar e) = false ∧ encodeChar e ≠ 0 ∧
      (encodeChar e = 49 → e = 0) := by decide
  exact hall d h

theorem encodeChar_ne_invalid {d : ℕ} (h : d < 58) : decodeChar (encodeChar d) ≠ -1 := by
  rw [decodeChar_encodeChar h]
  omega

end Chars

section Buffers

theorem toInt_of_lt {n : ℕ} (h : n < 2 ^ 31) : toInt n = n := by
  unfold toInt
  rw [Int.bmod_eq_of_le] <;> omega

theorem newVector_of_lt {n : ℕ} (h : n < 2 ^ 31) :
    newVector (toInt n) = .ok (List.replicate n 0) := by
  rw [toInt_of_lt h]
  unfold newVector
  rw [if_neg (by omega), Int.toNat_natCast]

/-- 138 / 100 is above log 256 / log 58. -/
theorem room_encode (n : ℕ) : 256 ^ n ≤ 58 ^ (n * 138 / 100 + 1) := by
  apply pow_le_pow_of_ratio (p := 8) (q := 11) (by decide) (by decide) (by norm_num)
  omega

/-- 733 / 1000 is above log 58 / log 256. -/
theorem room_decode (n : ℕ) : 58 ^ n ≤ 256 ^ (n * 733 / 1000 + 1) := by
  apply pow_le_pow_of_ratio (p := 71) (q := 52) (by decide) (by decide) (by norm_num)
  omega

/-- The room that the digits to come need shrinks with every digit. -/
theorem room_step {base mul size n value c : ℕ} (hc : c < mul)
    (hroom : mul ^ (n + 1) * (value + 1) ≤ base ^ size) :
    mul ^ n * (mul * value + c + 1) ≤ base ^ size ∧ mul * value + c < base ^ size := by
  have hnext : mul ^ n * (mul * value + c + 1) ≤ mul ^ (n + 1) * (value + 1) := by
    calc mul ^ n * (mul * value + c + 1) ≤ mul ^ n * (mul * (value + 1)) := by
          apply Nat.mul_le_mul_left
          rw [Nat.mul_add, Nat.mul_one]
          omega
      _ = mul ^ (n + 1) * (value + 1) := by rw [pow_succ, Nat.mul_assoc]
  have hone : mul * value + c + 1 ≤ mul ^ n * (mul * value + c + 1) :=
    Nat.le_mul_of_pos_left _ (Nat.pow_pos (Nat.zero_lt_of_lt hc))
  omega

/-- The digits in use at the end of a vector whose reverse is the buffer. -/
theorem vector_digits {base size length value : ℕ} (hbase : 1 < base) {vector : List ℕ}
    (h : Holds base size vector.reverse length value) :
    (vector.drop (vector.length - length)).dropWhile (· == 0) =
      (Nat.digits base value).reverse := by
  rw [← h.digits_eq hbase, List.take_reverse, List.reverse_reverse]

end Buffers

theorem ok_bind {α β : Type} (a : α) (f : α → Except Failure β) :
    (Except.ok a >>= f) = f a := rfl

section Encode

theorem encodeBytes_spec (rest : Bytes) {size length value : ℕ} {b58 : List ℕ}
    (h : Holds 58 size b58.reverse length value)
    (hroom : 256 ^ rest.length * (value + 1) ≤ 58 ^ size) :
    ∃ b58' length', encodeBytes rest b58 length = .ok (b58', length') ∧
      Holds 58 size b58'.reverse length' (readFrom 256 value (rest.map UInt8.toNat)) := by
  induction rest generalizing b58 length value with
  | nil => exact ⟨b58, length, rfl, h⟩
  | cons c rest ih =>
    obtain ⟨hnext, hfits⟩ := room_step c.toNat_lt hroom
    have hcarry := h.carry_eq_zero hfits
    have hstep := h.after_mulAdd (by decide) hcarry
    rw [← List.reverse_reverse (mulAdd 58 256 length 0 c.toNat b58.reverse).1] at hstep
    obtain ⟨b58', length', heq, hholds⟩ := ih hstep hnext
    refine ⟨b58', length', ?_, hholds⟩
    simp only [encodeBytes, hcarry, if_true]
    exact heq

theorem encodeBase58_eq {b : Bytes} (h : b.length < 2 ^ 30) : encodeBase58 b = .ok (text b) := by
  have hlen : (b.dropWhile (· == 0)).length ≤ b.length := (List.dropWhile_sublist _).length_le
  have hvector := newVector_of_lt
    (n := (b.dropWhile (· == 0)).length * 138 / 100 + 1) (by omega)
  have hzero : Holds 58 ((b.dropWhile (· == 0)).length * 138 / 100 + 1)
      (List.replicate ((b.dropWhile (· == 0)).length * 138 / 100 + 1) 0).reverse 0 0 := by
    rw [List.reverse_replicate]
    exact Holds.zero (by decide) _
  obtain ⟨b58, length, heq, hholds⟩ := encodeBytes_spec (b.dropWhile (· == 0)) hzero (by
    rw [Nat.zero_add, Nat.mul_one]
    exact room_encode _)
  unfold encodeBase58 text chars number
  simp only [hvector, ok_bind, heq, vector_digits (by decide) hholds]
  rfl

/-- Whatever the encoder writes is the text, also where its buffer is longer or shorter. -/
theorem encodeBytes_holds {rest : Bytes} {size length value : ℕ} {b58 : List ℕ} {r : List ℕ × ℕ}
    (h : Holds 58 size b58.reverse length value) (hr : encodeBytes rest b58 length = .ok r) :
    Holds 58 size r.1.reverse r.2 (readFrom 256 value (rest.map UInt8.toNat)) := by
  induction rest generalizing b58 length value with
  | nil =>
    cases hr
    exact h
  | cons c rest ih =>
    by_cases hcarry : (mulAdd 58 256 length 0 c.toNat b58.reverse).2.1 = 0
    · simp only [encodeBytes, hcarry, if_true] at hr
      have hstep := h.after_mulAdd (by decide) hcarry
      rw [← List.reverse_reverse (mulAdd 58 256 length 0 c.toNat b58.reverse).1] at hstep
      exact ih hstep hr
    · simp only [encodeBytes, hcarry, if_false] at hr
      cases hr

theorem eq_text_of_encode {b t : Bytes} (h : encodeBase58 b = .ok t) : t = text b := by
  have hunfold : encodeBase58 b = (newVector
      (toInt ((b.dropWhile (· == 0)).length * 138 / 100 + 1)) >>= fun b58 =>
      encodeBytes (b.dropWhile (· == 0)) b58 0 >>= fun r =>
        .ok (List.replicate (b.takeWhile (· == 0)).length 49 ++
          ((r.1.drop (r.1.length - r.2)).dropWhile (· == 0)).map encodeChar)) := rfl
  rw [hunfold] at h
  unfold newVector at h
  split_ifs at h with hneg
  · cases h
  · rw [ok_bind] at h
    cases heq : encodeBytes (b.dropWhile (· == 0)) (List.replicate
        (toInt ((b.dropWhile (· == 0)).length * 138 / 100 + 1)).toNat 0) 0 with
    | error e =>
      rw [heq] at h
      cases h
    | ok r =>
      rw [heq, ok_bind] at h
      have hzero := Holds.zero (show 0 < 58 by decide)
        (toInt ((b.dropWhile (· == 0)).length * 138 / 100 + 1)).toNat
      rw [← List.reverse_replicate] at hzero
      have hholds := encodeBytes_holds hzero heq
      rw [vector_digits (by decide) hholds] at h
      exact (Except.ok.inj h).symm

end Encode

section Decode

/-- The characters up to the first space. -/
def token (psz : Bytes) : Bytes := psz.takeWhile fun c => !isspace c

theorem decodeChars_spec (psz : Bytes) {size length value : ℕ} {b256 : List ℕ}
    (h : Holds 256 size b256.reverse length value)
    (hroom : 58 ^ (token psz).length * (value + 1) ≤ 256 ^ size)
    (hvalid : ∀ c ∈ token psz, decodeChar c ≠ -1) :
    ∃ b256' length', decodeChars psz b256 length =
      .ok (psz.dropWhile fun c => !isspace c, b256', length') ∧
      Holds 256 size b256'.reverse length'
        (readFrom 58 value ((token psz).map fun c => (decodeChar c).toNat)) := by
  induction psz generalizing b256 length value with
  | nil => exact ⟨b256, length, rfl, h⟩
  | cons c psz ih =>
    by_cases hspace : isspace c = true
    · have htoken : token (c :: psz) = [] := by simp [token, hspace]
      refine ⟨b256, length, ?_, ?_⟩
      · simp [decodeChars, hspace]
      · rw [htoken]
        exact h
    · have htoken : token (c :: psz) = c :: token psz := by simp [token, hspace]
      rw [htoken] at hroom hvalid ⊢
      have hc := hvalid c List.mem_cons_self
      obtain ⟨hnext, hfits⟩ := room_step (encodeChar_decodeChar hc).1 hroom
      have hcarry := h.carry_eq_zero hfits
      have hstep := h.after_mulAdd (by decide) hcarry
      rw [← List.reverse_reverse
        (mulAdd 256 58 length 0 (decodeChar c).toNat b256.reverse).1] at hstep
      obtain ⟨b256', length', heq, hholds⟩ :=
        ih hstep hnext fun e he => hvalid e (List.mem_cons_of_mem _ he)
      refine ⟨b256', length', ?_, hholds⟩
      have hdrop : (c :: psz).dropWhile (fun c => !isspace c) =
          psz.dropWhile fun c => !isspace c := by simp [hspace]
      rw [hdrop, ← heq]
      simp [decodeChars, hspace, hc, hcarry]

/-- The first character that is no digit ends the decoder before an assertion can. -/
theorem decodeChars_invalid (psz : Bytes) {size length value : ℕ} {b256 : List ℕ}
    (h : Holds 256 size b256.reverse length value)
    (hroom : 58 ^ (token psz).length * (value + 1) ≤ 256 ^ size)
    (hinvalid : ∃ c ∈ token psz, decodeChar c = -1) :
    decodeChars psz b256 length = .error .invalid := by
  induction psz generalizing b256 length value with
  | nil =>
    obtain ⟨c, hc, -⟩ := hinvalid
    cases hc
  | cons c psz ih =>
    by_cases hspace : isspace c = true
    · have htoken : token (c :: psz) = [] := by simp [token, hspace]
      rw [htoken] at hinvalid
      obtain ⟨e, he, -⟩ := hinvalid
      cases he
    · have htoken : token (c :: psz) = c :: token psz := by simp [token, hspace]
      rw [htoken] at hroom hinvalid
      by_cases hc : decodeChar c = -1
      · simp [decodeChars, hspace, hc]
      · obtain ⟨hnext, hfits⟩ := room_step (encodeChar_decodeChar hc).1 hroom
        have hcarry := h.carry_eq_zero hfits
        have hstep := h.after_mulAdd (by decide) hcarry
        rw [← List.reverse_reverse
          (mulAdd 256 58 length 0 (decodeChar c).toNat b256.reverse).1] at hstep
        have hrest : ∃ e ∈ token psz, decodeChar e = -1 := by
          obtain ⟨e, he, heq⟩ := hinvalid
          rcases List.mem_cons.mp he with rfl | he
          · exact absurd heq hc
          · exact ⟨e, he, heq⟩
        have hnextstep := ih hstep hnext hrest
        rw [← hnextstep]
        simp [decodeChars, hspace, hc, hcarry]

/-- The characters of a token all have a place in the alphabet. -/
def areDigits (cs : Bytes) : Bool := cs.all fun c => decodeChar c != -1

lemma areDigits_iff {cs : Bytes} : areDigits cs = true ↔ ∀ c ∈ cs, decodeChar c ≠ -1 := by
  rw [areDigits, List.all_eq_true]
  exact forall₂_congr fun _ _ => bne_iff_ne

/-- A token of digits without a leading `1`, surrounded by what the decoder skips. -/
theorem decodeBase58_eq {s : Bytes} (h : s.length < 2 ^ 31) :
    let psz := (cStr s).dropWhile isspace
    let rest := psz.dropWhile (· == 49)
    decodeBase58 s =
      if areDigits (token rest) = true ∧
          (rest.dropWhile fun c => !isspace c).dropWhile isspace = [] then
        .ok (List.replicate (psz.takeWhile (· == 49)).length 0 ++ (Nat.digits 256
          (readFrom 58 0 ((token rest).map fun c => (decodeChar c).toNat))).reverse.map UInt8.ofNat)
      else .error .invalid := by
  intro psz rest
  have hlen : rest.length ≤ s.length := by
    calc rest.length ≤ psz.length := (List.dropWhile_sublist _).length_le
      _ ≤ (cStr s).length := (List.dropWhile_sublist _).length_le
      _ ≤ s.length := (List.takeWhile_sublist _).length_le
  have htoken : (token rest).length ≤ rest.length := (List.takeWhile_sublist _).length_le
  have hvector := newVector_of_lt (n := rest.length * 733 / 1000 + 1) (by omega)
  have hzero : Holds 256 (rest.length * 733 / 1000 + 1)
      (List.replicate (rest.length * 733 / 1000 + 1) 0).reverse 0 0 := by
    rw [List.reverse_replicate]
    exact Holds.zero (by decide) _
  have hroom : 58 ^ (token rest).length * (0 + 1) ≤ 256 ^ (rest.length * 733 / 1000 + 1) := by
    rw [Nat.zero_add, Nat.mul_one]
    exact (Nat.pow_le_pow_right (by decide) htoken).trans (room_decode _)
  have hunfold : decodeBase58 s = (newVector (toInt (rest.length * 733 / 1000 + 1)) >>= fun b256 =>
      decodeChars rest b256 0 >>= fun r =>
        if r.1.dropWhile isspace ≠ [] then .error .invalid
        else .ok (List.replicate (psz.takeWhile (· == 49)).length 0 ++
          ((r.2.1.drop (r.2.1.length - r.2.2)).dropWhile (· == 0)).map UInt8.ofNat)) := rfl
  rw [hunfold, hvector, ok_bind]
  by_cases hvalid : ∀ c ∈ token rest, decodeChar c ≠ -1
  · obtain ⟨b256, length, heq, hholds⟩ := decodeChars_spec rest hzero hroom hvalid
    rw [heq, ok_bind, vector_digits (by decide) hholds]
    by_cases hspace : (rest.dropWhile fun c => !isspace c).dropWhile isspace = []
    · rw [if_neg (by simpa using hspace), if_pos ⟨areDigits_iff.mpr hvalid, hspace⟩]
    · rw [if_pos hspace, if_neg fun hboth => hspace hboth.2]
  · have hinvalid : ∃ c ∈ token rest, decodeChar c = -1 := by
      by_contra hnone
      exact hvalid fun c hc heq => hnone ⟨c, hc, heq⟩
    rw [decodeChars_invalid rest hzero hroom hinvalid, if_neg fun hboth =>
      hvalid (areDigits_iff.mp hboth.1)]
    rfl

end Decode

section Text

lemma dropWhile_head {b : Bytes} : ∀ c ∈ (b.dropWhile (· == 0)).head?, c ≠ 0 := by
  intro c hc hzero
  have hnot := List.head?_dropWhile_not (fun c : UInt8 => c == 0) b
  rw [Option.mem_def.mp hc] at hnot
  simp [hzero] at hnot

lemma bytes_head_ne_zero {b : Bytes} (h : ∀ c ∈ b.head?, c ≠ 0) :
    (b.map UInt8.toNat).head? ≠ some 0 := by
  cases b with
  | nil => simp
  | cons c b =>
    intro heq
    simp only [List.map_cons, List.head?_cons, Option.some.injEq] at heq
    exact h c rfl (UInt8.toNat_inj.mp heq)

lemma bytes_lt (b : Bytes) : ∀ d ∈ b.map UInt8.toNat, d < 256 := by
  intro d hd
  obtain ⟨c, -, rfl⟩ := List.mem_map.mp hd
  exact c.toNat_lt

/-- Bytes that do not begin with zero come back from their number. -/
theorem bytes_of_number {b : Bytes} (h : ∀ c ∈ b.head?, c ≠ 0) :
    (Nat.digits 256 (number b)).reverse.map UInt8.ofNat = b := by
  rw [number, digits_readFrom (by decide) (bytes_lt b) (bytes_head_ne_zero h), List.map_map]
  calc b.map (UInt8.ofNat ∘ UInt8.toNat) = b.map id :=
        List.map_congr_left fun c _ => UInt8.ofNat_toNat
    _ = b := List.map_id b

lemma digits_lt {n : ℕ} : ∀ d ∈ (Nat.digits 58 n).reverse, d < 58 := fun _ hd =>
  Nat.digits_lt_base (by decide) (List.mem_reverse.mp hd)

theorem mem_chars {n : ℕ} {c : UInt8} (h : c ∈ chars n) :
    decodeChar c ≠ -1 ∧ isspace c = false ∧ c ≠ 0 := by
  obtain ⟨d, hd, rfl⟩ := List.mem_map.mp h
  have hlt := digits_lt d hd
  obtain ⟨hspace, hzero, -⟩ := encodeChar_plain hlt
  exact ⟨encodeChar_ne_invalid hlt, hspace, hzero⟩

theorem chars_head_ne {n : ℕ} : (chars n).head? ≠ some 49 := by
  unfold chars
  rw [List.head?_map]
  intro hhead
  obtain ⟨d, hd, heq⟩ := Option.map_eq_some_iff.mp hhead
  have hlt := digits_lt d (List.mem_of_mem_head? hd)
  rw [(encodeChar_plain hlt).2.2 heq] at hd
  exact head_digits_ne_zero n hd

theorem readFrom_chars (n : ℕ) :
    readFrom 58 0 ((chars n).map fun c => (decodeChar c).toNat) = n := by
  have hback : (chars n).map (fun c => (decodeChar c).toNat) = (Nat.digits 58 n).reverse := by
    unfold chars
    rw [List.map_map]
    calc (Nat.digits 58 n).reverse.map ((fun c => (decodeChar c).toNat) ∘ encodeChar)
        = (Nat.digits 58 n).reverse.map id := by
          apply List.map_congr_left
          intro d hd
          rw [Function.comp_apply, decodeChar_encodeChar (digits_lt d hd), Int.toNat_natCast, id]
      _ = (Nat.digits 58 n).reverse := List.map_id _
  rw [hback, readFrom_digits]

/-- Valid characters without a leading `1` are the characters of the number they stand for. -/
theorem chars_readFrom {cs : Bytes} (hvalid : ∀ c ∈ cs, decodeChar c ≠ -1)
    (hhead : cs.head? ≠ some 49) :
    chars (readFrom 58 0 (cs.map fun c => (decodeChar c).toNat)) = cs := by
  have hlt : ∀ d ∈ cs.map (fun c => (decodeChar c).toNat), d < 58 := by
    intro d hd
    obtain ⟨c, hc, rfl⟩ := List.mem_map.mp hd
    exact (encodeChar_decodeChar (hvalid c hc)).1
  have hne : (cs.map fun c => (decodeChar c).toNat).head? ≠ some 0 := by
    rw [List.head?_map]
    intro hzero
    obtain ⟨c, hc, heq⟩ := Option.map_eq_some_iff.mp hzero
    have hchar := (encodeChar_decodeChar (hvalid c (List.mem_of_mem_head? hc))).2
    rw [heq] at hchar
    rw [hc, ← hchar] at hhead
    exact hhead rfl
  rw [chars, digits_readFrom (by decide) hlt hne, List.map_map]
  calc cs.map (encodeChar ∘ fun c => (decodeChar c).toNat) = cs.map id := by
        apply List.map_congr_left
        intro c hc
        exact (encodeChar_decodeChar (hvalid c hc)).2
    _ = cs := List.map_id cs

end Text

section Spans
variable {α : Type} {p : α → Bool} {xs ys : List α}

theorem takeWhile_span (hxs : ∀ a ∈ xs, p a = true) (hys : ∀ a ∈ ys.head?, p a = false) :
    (xs ++ ys).takeWhile p = xs := by
  rw [List.takeWhile_append_of_pos hxs]
  cases ys with
  | nil => simp
  | cons y ys =>
    rw [List.takeWhile_cons_of_neg (by simp [hys y rfl]), List.append_nil]

theorem dropWhile_span (hxs : ∀ a ∈ xs, p a = true) (hys : ∀ a ∈ ys.head?, p a = false) :
    (xs ++ ys).dropWhile p = ys := by
  rw [List.dropWhile_append_of_pos hxs]
  cases ys with
  | nil => rfl
  | cons y ys => exact List.dropWhile_cons_of_neg (by simp [hys y rfl])

end Spans

section RoundTrip

/-- The zeros, the number and the spaces come apart again. -/
theorem spans_of_text (zeroes n : ℕ) {r : Bytes} (hr : ∀ c ∈ r, isspace c = true) :
    let psz := List.replicate zeroes 49 ++ (chars n ++ r)
    psz.takeWhile (· == 49) = List.replicate zeroes 49 ∧
      psz.dropWhile (· == 49) = chars n ++ r ∧ token (chars n ++ r) = chars n ∧
      ((chars n ++ r).dropWhile fun c => !isspace c) = r := by
  intro psz
  have hzeroes : ∀ c ∈ List.replicate zeroes (49 : UInt8), (c == 49) = true := by
    intro c hc
    rw [List.eq_of_mem_replicate hc]
    rfl
  have hhead : ∀ c ∈ (chars n ++ r).head?, (c == 49) = false := by
    intro c hc
    rw [beq_eq_false_iff_ne]
    intro heq
    rw [heq, List.head?_append] at hc
    cases hchars : (chars n).head? with
    | none =>
      rw [hchars] at hc
      have hspace := hr 49 (List.mem_of_mem_head? hc)
      exact absurd hspace (by decide)
    | some d =>
      rw [hchars] at hc
      simp only [Option.some_or, Option.mem_def, Option.some.injEq] at hc
      exact chars_head_ne (hc ▸ hchars)
  have hplain : ∀ c ∈ chars n, (!isspace c) = true := by
    intro c hc
    rw [(mem_chars hc).2.1]
    rfl
  have hspaces : ∀ c ∈ r.head?, (!isspace c) = false := by
    intro c hc
    rw [hr c (List.mem_of_mem_head? hc)]
    rfl
  exact ⟨takeWhile_span hzeroes hhead, dropWhile_span hzeroes hhead,
    takeWhile_span hplain hspaces, dropWhile_span hplain hspaces⟩

/-- Bytes are their leading zeros and the number behind them. -/
theorem eq_zeroes_append_number (v : Bytes) :
    List.replicate (v.takeWhile (· == 0)).length 0 ++
      (Nat.digits 256 (number (v.dropWhile (· == 0)))).reverse.map UInt8.ofNat = v := by
  have hzeroes : v.takeWhile (· == 0) = List.replicate (v.takeWhile (· == 0)).length 0 := by
    apply List.eq_replicate_of_mem
    intro c hc
    exact beq_iff_eq.mp (List.mem_takeWhile_imp (p := (· == 0)) hc)
  rw [bytes_of_number dropWhile_head, ← hzeroes, List.takeWhile_append_dropWhile]

theorem decode_of_text {s v r : Bytes} (h : s.length < 2 ^ 31)
    (hr : ∀ c ∈ r, isspace c = true) (hs : (cStr s).dropWhile isspace = text v ++ r) :
    decodeBase58 s = .ok v := by
  have hdecode := decodeBase58_eq h
  rw [text, List.append_assoc] at hs
  obtain ⟨htake, hdrop, htoken, hrest⟩ :=
    spans_of_text (v.takeWhile (· == 0)).length (number (v.dropWhile (· == 0))) hr
  have hend : r.dropWhile isspace = [] := List.dropWhile_eq_nil_iff.mpr hr
  simp only [hs, htake, hdrop, htoken, hrest, hend, List.length_replicate, readFrom_chars,
    eq_zeroes_append_number] at hdecode
  rw [hdecode, if_pos ⟨areDigits_iff.mpr fun c hc => (mem_chars hc).1, trivial⟩]

/-- What the decoder accepts, it has the text of. -/
theorem text_of_decode {s v : Bytes} (h : s.length < 2 ^ 31) (hv : decodeBase58 s = .ok v) :
    ∃ r, (∀ c ∈ r, isspace c = true) ∧ (cStr s).dropWhile isspace = text v ++ r := by
  set psz := (cStr s).dropWhile isspace with hpsz
  set rest := psz.dropWhile (· == 49) with hrest
  have hdecode := decodeBase58_eq h
  simp only [← hpsz, ← hrest] at hdecode
  rw [hv] at hdecode
  split_ifs at hdecode with hcond
  obtain ⟨hvalid, hspaces⟩ := hcond
  simp only [Except.ok.injEq] at hdecode
  have hsplit : rest = token rest ++ rest.dropWhile fun c => !isspace c :=
    List.takeWhile_append_dropWhile.symm
  have hhead : (token rest).head? ≠ some 49 := by
    intro heq
    have hnot := List.head?_dropWhile_not (fun c : UInt8 => c == 49) psz
    rw [← hrest, hsplit, List.head?_append, heq] at hnot
    simp at hnot
  have hchars := chars_readFrom (areDigits_iff.mp hvalid) hhead
  set n := readFrom 58 0 ((token rest).map fun c => (decodeChar c).toNat)
  -- the zeros in front of the decoded bytes are those of the ones
  have hbytes : ∀ c ∈ ((Nat.digits 256 n).reverse.map UInt8.ofNat).head?, (c == 0) = false := by
    rw [List.head?_map]
    intro c hc
    obtain ⟨d, hd, rfl⟩ := Option.map_eq_some_iff.mp hc
    have hlt : d < 256 :=
      Nat.digits_lt_base (by decide) (List.mem_reverse.mp (List.mem_of_mem_head? hd))
    rw [beq_eq_false_iff_ne]
    intro hzero
    have hnat := congrArg UInt8.toNat hzero
    rw [UInt8.toNat_ofNat_of_lt' hlt] at hnat
    rw [hnat] at hd
    exact head_digits_ne_zero n hd
  have hzeroes : ∀ c ∈ List.replicate (psz.takeWhile (· == 49)).length (0 : UInt8),
      (c == 0) = true := by
    intro c hc
    rw [List.eq_of_mem_replicate hc]
    rfl
  have hnumber : number ((Nat.digits 256 n).reverse.map UInt8.ofNat) = n := by
    have hback : ((Nat.digits 256 n).reverse.map UInt8.ofNat).map UInt8.toNat =
        (Nat.digits 256 n).reverse := by
      rw [List.map_map]
      calc (Nat.digits 256 n).reverse.map (UInt8.toNat ∘ UInt8.ofNat)
          = (Nat.digits 256 n).reverse.map id := by
            apply List.map_congr_left
            intro d hd
            exact UInt8.toNat_ofNat_of_lt'
              (Nat.digits_lt_base (by decide) (List.mem_reverse.mp hd))
        _ = (Nat.digits 256 n).reverse := List.map_id _
    rw [number, hback, readFrom_digits]
  have htext : text v = List.replicate (psz.takeWhile (· == 49)).length 49 ++ token rest := by
    rw [hdecode, text, takeWhile_span hzeroes hbytes, dropWhile_span hzeroes hbytes, hnumber,
      hchars, List.length_replicate]
  have hones : psz.takeWhile (· == 49) = List.replicate (psz.takeWhile (· == 49)).length 49 := by
    apply List.eq_replicate_of_mem
    intro c hc
    exact beq_iff_eq.mp (List.mem_takeWhile_imp (p := (· == 49)) hc)
  refine ⟨rest.dropWhile fun c => !isspace c, List.dropWhile_eq_nil_iff.mp hspaces, ?_⟩
  rw [htext, List.append_assoc, ← hsplit, ← hones, hrest]
  exact List.takeWhile_append_dropWhile.symm

theorem mem_text {v : Bytes} {c : UInt8} (h : c ∈ text v) : isspace c = false ∧ c ≠ 0 := by
  rcases List.mem_append.mp h with hone | hchar
  · rw [List.eq_of_mem_replicate hone]
    decide
  · exact (mem_chars hchar).2

theorem length_le_text (v : Bytes) : v.length ≤ (text v).length := by
  set n := number (v.dropWhile (· == 0)) with hn
  have hsplit := congrArg List.length (eq_zeroes_append_number v)
  rw [← hn] at hsplit
  simp only [List.length_append, List.length_replicate, List.length_map,
    List.length_reverse] at hsplit
  have hdigits : (Nat.digits 256 n).length ≤ (Nat.digits 58 n).length := by
    rw [Nat.digits_length_le_iff (by decide)]
    calc n < 58 ^ (Nat.digits 58 n).length := Nat.lt_base_pow_length_digits (by decide)
      _ ≤ 256 ^ (Nat.digits 58 n).length := Nat.pow_le_pow_left (by decide) _
  simp only [text, chars, List.length_append, List.length_replicate, List.length_map,
    List.length_reverse, ← hn]
  omega

theorem text_length_le (v : Bytes) : (text v).length ≤ v.length * 138 / 100 + 1 := by
  set rest := v.dropWhile (· == 0) with hrest
  have hlen : (v.takeWhile (· == 0)).length + rest.length = v.length := by
    rw [← List.length_append, hrest, List.takeWhile_append_dropWhile]
  have hnumber : number rest < 256 ^ rest.length := by
    have hlt := @readFrom_lt 256 0 (by decide) _ (bytes_lt rest)
    rw [List.length_map, Nat.zero_add, Nat.mul_one] at hlt
    exact hlt
  have hdigits : (Nat.digits 58 (number rest)).length ≤ rest.length * 138 / 100 + 1 := by
    rw [Nat.digits_length_le_iff (by decide)]
    exact hnumber.trans_le (room_encode _)
  simp only [text, chars, List.length_append, List.length_replicate, List.length_map,
    List.length_reverse, ← hrest]
  omega

/-- The text of bytes, alone in a string. -/
theorem cStr_text (v : Bytes) : (cStr (text v)).dropWhile isspace = text v ++ [] := by
  have hcStr : cStr (text v) = text v := by
    unfold cStr
    rw [List.takeWhile_eq_self_iff]
    intro c hc
    simpa using (mem_text hc).2
  rw [hcStr, List.append_nil]
  cases htext : text v with
  | nil => rfl
  | cons c t =>
    have hc := (mem_text (v := v) (c := c) (by rw [htext]; exact List.mem_cons_self)).1
    exact List.dropWhile_cons_of_neg (by simp [hc])

/-- `as<base58_bytes>` and back: both buffers have room for every digit, no assertion fails, and
the bytes come back with the zeros in front of them. -/
theorem asRaw_asBase58 {b : Bytes} (h : b.length < 2 ^ 30) :
    ∃ t, asBase58 b = .ok t ∧ asRaw t = .ok b := by
  refine ⟨text b, encodeBase58_eq h, ?_⟩
  have hlen := text_length_le b
  exact decode_of_text (by omega) (r := []) (fun _ hc => absurd hc List.not_mem_nil) (cStr_text b)

theorem asRaw_asBase58_zeros :
    [0, 0, 73, 255].length < 2 ^ 30 ∧
      ∃ t, asBase58 [0, 0, 73, 255] = .ok t ∧ asRaw t = .ok [0, 0, 73, 255] :=
  ⟨by decide, asRaw_asBase58 (b := [0, 0, 73, 255]) (by decide)⟩

/-- The decoder accepts exactly the texts that the encoder writes, with spaces around them and
anything behind a zero byte; on every other string it answers `false`. -/
theorem decodeBase58_exact {s : Bytes} (h : s.length < 2 ^ 30) :
    (∀ v, decodeBase58 s = .ok v ↔ ∃ l t r, cStr s = l ++ t ++ r ∧
      (∀ c ∈ l ++ r, isspace c = true) ∧ encodeBase58 v = .ok t) ∧
    ∀ e, decodeBase58 s = .error e → e = .invalid := by
  have hcStr : (cStr s).length ≤ s.length := (List.takeWhile_sublist _).length_le
  constructor
  · intro v
    constructor
    · intro hv
      obtain ⟨r, hr, htext⟩ := text_of_decode (by omega) hv
      refine ⟨(cStr s).takeWhile isspace, text v, r, ?_, ?_, ?_⟩
      · rw [List.append_assoc, ← htext, List.takeWhile_append_dropWhile]
      · intro c hc
        rcases List.mem_append.mp hc with hl | hc
        · exact List.mem_takeWhile_imp hl
        · exact hr c hc
      · apply encodeBase58_eq
        have hlen := congrArg List.length htext
        rw [List.length_append] at hlen
        have hdrop : ((cStr s).dropWhile isspace).length ≤ (cStr s).length :=
          (List.dropWhile_sublist _).length_le
        have hle := length_le_text v
        omega
    · rintro ⟨l, t, r, hs, hspaces, ht⟩
      have hl : ∀ c ∈ l, isspace c = true := fun c hc => hspaces c (List.mem_append_left _ hc)
      have hr : ∀ c ∈ r, isspace c = true := fun c hc => hspaces c (List.mem_append_right _ hc)
      have htext := eq_text_of_encode ht
      cases t with
      | nil =>
        apply decode_of_text (by omega) (r := []) (fun _ hc => absurd hc List.not_mem_nil)
        rw [hs, ← htext]
        apply List.dropWhile_eq_nil_iff.mpr
        simpa using hspaces
      | cons c t =>
        apply decode_of_text (by omega) hr
        have hc := (mem_text (v := v) (c := c) (by rw [← htext]; exact List.mem_cons_self)).1
        rw [hs, List.append_assoc, List.dropWhile_append_of_pos hl, ← htext]
        exact List.dropWhile_cons_of_neg (by simp [hc])
  · intro e he
    have hdecode := decodeBase58_eq (s := s) (by omega)
    simp only [he] at hdecode
    split_ifs at hdecode
    exact Except.error.inj hdecode

theorem decodeBase58_exact_spaced :
    (∀ v, decodeBase58 [32, 50, 103, 10] = .ok v ↔ ∃ l t r, cStr [32, 50, 103, 10] = l ++ t ++ r ∧
      (∀ c ∈ l ++ r, isspace c = true) ∧ encodeBase58 v = .ok t) ∧
    ∀ e, decodeBase58 [32, 50, 103, 10] = .error e → e = .invalid :=
  decodeBase58_exact (by decide)

end RoundTrip

end PrivacyComputing.Base58
