import Mathlib.Algebra.Ring.Nat
import PrivacyComputing.CryptoPack

/-! The base64 form of `bytes`: both alphabets, the liberal decoder, and the line breaks of the
PEM and MIME forms. A thrown `runtime_error` is no result. Bytes are promoted to `int` before
they are shifted, so the positions in the alphabet are numbers. -/
namespace PrivacyComputing.Base64

def base64Chars (url : Bool) : Bytes :=
  [65, 66, 67, 68, 69, 70, 71, 72, 73, 74, 75, 76, 77, 78, 79, 80, 81, 82, 83, 84, 85, 86, 87,
  88, 89, 90, 97, 98, 99, 100, 101, 102, 103, 104, 105, 106, 107, 108, 109, 110, 111, 112, 113,
  114, 115, 116, 117, 118, 119, 120, 121, 122, 48, 49, 50, 51, 52, 53, 54, 55, 56, 57] ++
  if url then [45, 95] else [43, 47]

def charAt (url : Bool) (i : ℕ) : UInt8 := (base64Chars url).getD i 0

def posOfChar (chr : UInt8) : Option ℕ :=
  if chr ≥ 65 ∧ chr ≤ 90 then some (chr.toNat - 65)
  else if chr ≥ 97 ∧ chr ≤ 122 then some (chr.toNat - 97 + (90 - 65) + 1)
  else if chr ≥ 48 ∧ chr ≤ 57 then some (chr.toNat - 48 + (90 - 65) + (122 - 97) + 2)
  -- both alphabets are read
  else if chr = 43 ∨ chr = 45 then some 62
  else if chr = 47 ∨ chr = 95 then some 63
  else none

def trailingChar (url : Bool) : UInt8 := if url then 46 else 61

/-- What one turn of `base64_encode` writes for the bytes from `pos` on. The position is an
`unsigned int`, the length a `size_t`. -/
def encodeTurn (url : Bool) (b : Bytes) (pos : UInt32) : Bytes :=
  let x := (b.getD pos.toNat 0).toNat
  let y := (b.getD (pos + 1).toNat 0).toNat
  let z := (b.getD (pos + 2).toNat 0).toNat
  charAt url ((x &&& 0xfc) >>> 2) ::
    if (pos + 1).toNat < b.length then
      charAt url (((x &&& 0x03) <<< 4) + ((y &&& 0xf0) >>> 4)) ::
        if (pos + 2).toNat < b.length then
          [charAt url (((y &&& 0x0f) <<< 2) + ((z &&& 0xc0) >>> 6)), charAt url (z &&& 0x3f)]
        else [charAt url ((y &&& 0x0f) <<< 2), trailingChar url]
    else [charAt url ((x &&& 0x03) <<< 4), trailingChar url, trailingChar url]

/-- The loop of `base64_encode`, for as many turns. -/
def encodeLoop (url : Bool) (b : Bytes) : ℕ → UInt32 → Option Bytes
  | 0, _ => none
  | turns + 1, pos =>
    if pos.toNat < b.length then do
      let rest ← encodeLoop url b turns (pos + 3)
      return encodeTurn url b pos ++ rest
    else some []

/-- More turns than bytes: a loop that is not over by then never ends, which happens from `2 ^ 32`
bytes on, where `pos` starts again at the front. -/
def base64Encode (url : Bool) (b : Bytes) : Option Bytes := encodeLoop url b (b.length + 1) 0

def isPadding (c : UInt8) : Bool := c == 61 || c == 46

def firstByte (p p₁ : ℕ) : UInt8 := UInt8.ofNat ((p <<< 2) + ((p₁ &&& 0x30) >>> 4))

def secondByte (p₁ p₂ : ℕ) : UInt8 := UInt8.ofNat (((p₁ &&& 0x0f) <<< 4) + ((p₂ &&& 0x3c) >>> 2))

def thirdByte (p₂ p₃ : ℕ) : UInt8 := UInt8.ofNat (((p₂ &&& 0x03) <<< 6) + p₃)

/-- What one turn of the decoder emits for the characters of its chunk: the first two are read
before anything is checked, and a third one that is padding hides the fourth. -/
def decodeChunk (c₀ c₁ : UInt8) (c₂ c₃ : Option UInt8) : Option Bytes := do
  let p₁ ← posOfChar c₁
  let p₀ ← posOfChar c₀
  match c₂ with
  | none => return [firstByte p₀ p₁]
  | some c₂ =>
    if isPadding c₂ then return [firstByte p₀ p₁]
    else
      let p₂ ← posOfChar c₂
      match c₃ with
      | none => return [firstByte p₀ p₁, secondByte p₁ p₂]
      | some c₃ =>
        if isPadding c₃ then return [firstByte p₀ p₁, secondByte p₁ p₂]
        else
          let p₃ ← posOfChar c₃
          return [firstByte p₀ p₁, secondByte p₁ p₂, thirdByte p₂ p₃]

/-- The loop over the chunks. Of a chunk of one character the second is the terminating zero
byte of the string. -/
def decodeChunks : Bytes → Option Bytes
  | [] => some []
  | [c₀] => decodeChunk c₀ 0 none none
  | [c₀, c₁] => decodeChunk c₀ c₁ none none
  | [c₀, c₁, c₂] => decodeChunk c₀ c₁ (some c₂) none
  | c₀ :: c₁ :: c₂ :: c₃ :: rest => do
    let out ← decodeChunk c₀ c₁ (some c₂) (some c₃)
    let more ← decodeChunks rest
    return out ++ more

def base64Decode (s : Bytes) (removeLinebreaks : Bool) : Option Bytes :=
  if s = [] then some []
  else if removeLinebreaks then decodeChunks (s.filter (· != 10))
  else decodeChunks s

/-- The loop of `insert_linebreaks`: `str.insert(pos, "\n")` as long as `pos` is in the string. -/
def insertFrom (distance : ℕ) (positive : 0 < distance) (str : Bytes) (pos : ℕ) : Bytes :=
  if pos < str.length then
    insertFrom distance positive (str.take pos ++ 10 :: str.drop pos) (pos + (distance + 1))
  else str
  termination_by str.length - pos
  decreasing_by
    simp only [List.length_append, List.length_take, List.length_cons, List.length_drop]
    omega

def insertLinebreaks (str : Bytes) (distance : ℕ) (positive : 0 < distance) : Bytes :=
  if str.length = 0 then [] else insertFrom distance positive str distance

def encodeWithLineBreaks (s : Bytes) (lineLength : ℕ) (positive : 0 < lineLength) :
    Option Bytes := do
  let text ← base64Encode false s
  return insertLinebreaks text lineLength positive

def base64EncodePem (s : Bytes) : Option Bytes := encodeWithLineBreaks s 64 (by decide)

def base64EncodeMime (s : Bytes) : Option Bytes := encodeWithLineBreaks s 76 (by decide)

/-- `as<base64_bytes>` and, of a base64 text, `as<bytes>`. -/
def asBase64 (b : Bytes) : Option Bytes := base64Encode false b

def asRaw (s : Bytes) : Option Bytes := base64Decode s false

section Digits

theorem posOfChar_charAt (url : Bool) {i : ℕ} (h : i < 64) : posOfChar (charAt url i) = some i := by
  have hall : ∀ url : Bool, ∀ j < 64, posOfChar (charAt url j) = some j := by decide
  exact hall url i h

theorem charAt_plain (url : Bool) {i : ℕ} (h : i < 64) :
    isPadding (charAt url i) = false ∧ charAt url i ≠ 10 := by
  have hall : ∀ url : Bool, ∀ j < 64, isPadding (charAt url j) = false ∧ charAt url j ≠ 10 := by
    decide
  exact hall url i h

theorem isPadding_trailingChar (url : Bool) : isPadding (trailingChar url) = true := by
  cases url <;> rfl

theorem high_six {n : ℕ} (h : n < 256) : (n &&& 0xfc) >>> 2 = n / 4 := by
  have hall : ∀ m < 256, (m &&& 0xfc) >>> 2 = m / 4 := by decide +kernel
  exact hall n h

theorem low_two (n : ℕ) : (n &&& 0x03) <<< 4 = n % 4 * 16 := by
  rw [Nat.shiftLeft_eq]
  exact congrArg (· * 16) (Nat.and_two_pow_sub_one_eq_mod n 2)

theorem high_four {n : ℕ} (h : n < 256) : (n &&& 0xf0) >>> 4 = n / 16 := by
  have hall : ∀ m < 256, (m &&& 0xf0) >>> 4 = m / 16 := by decide +kernel
  exact hall n h

theorem low_four (n : ℕ) : (n &&& 0x0f) <<< 2 = n % 16 * 4 := by
  rw [Nat.shiftLeft_eq]
  exact congrArg (· * 4) (Nat.and_two_pow_sub_one_eq_mod n 4)

theorem high_two {n : ℕ} (h : n < 256) : (n &&& 0xc0) >>> 6 = n / 64 := by
  have hall : ∀ m < 256, (m &&& 0xc0) >>> 6 = m / 64 := by decide +kernel
  exact hall n h

theorem low_six (n : ℕ) : n &&& 0x3f = n % 64 := Nat.and_two_pow_sub_one_eq_mod n 6

theorem ofNat_eq {n : ℕ} {x : UInt8} (h : n = x.toNat) : UInt8.ofNat n = x := by
  rw [h, UInt8.ofNat_toNat]

/-- The two characters of the first byte; what the second one has of the next byte is masked. -/
theorem firstByte_eq {x : UInt8} {m : ℕ} (hm : m < 16) :
    firstByte (x.toNat / 4) (x.toNat % 4 * 16 + m) = x := by
  have hx := x.toNat_lt
  have hmask : ∀ p < 64, (p &&& 0x30) >>> 4 = p / 16 := by decide
  unfold firstByte
  rw [hmask _ (by omega), Nat.shiftLeft_eq]
  apply ofNat_eq
  omega

theorem secondByte_eq {y : UInt8} {m k : ℕ} (hm : m < 4) (hk : k < 4) :
    secondByte (k * 16 + y.toNat / 16) (y.toNat % 16 * 4 + m) = y := by
  have hy := y.toNat_lt
  have hmask : ∀ p < 64, (p &&& 0x3c) >>> 2 = p / 4 := by decide
  have hlow : ∀ p < 64, p &&& 0x0f = p % 16 := by decide
  unfold secondByte
  rw [hmask _ (by omega), hlow _ (by omega), Nat.shiftLeft_eq]
  apply ofNat_eq
  omega

theorem thirdByte_eq {z : UInt8} {k : ℕ} (hk : k < 16) :
    thirdByte (k * 4 + z.toNat / 64) (z.toNat % 64) = z := by
  have hz := z.toNat_lt
  have hlow : ∀ p < 64, p &&& 0x03 = p % 4 := by decide
  unfold thirdByte
  rw [hlow _ (by omega), Nat.shiftLeft_eq]
  apply ofNat_eq
  omega

end Digits

section Encoder

/-- The text without positions, three bytes a turn. -/
def encodeChunks (url : Bool) : Bytes → Bytes
  | [] => []
  | [x] =>
    [charAt url ((x.toNat &&& 0xfc) >>> 2), charAt url ((x.toNat &&& 0x03) <<< 4),
      trailingChar url, trailingChar url]
  | [x, y] =>
    [charAt url ((x.toNat &&& 0xfc) >>> 2),
      charAt url (((x.toNat &&& 0x03) <<< 4) + ((y.toNat &&& 0xf0) >>> 4)),
      charAt url ((y.toNat &&& 0x0f) <<< 2), trailingChar url]
  | x :: y :: z :: rest =>
    charAt url ((x.toNat &&& 0xfc) >>> 2) ::
      charAt url (((x.toNat &&& 0x03) <<< 4) + ((y.toNat &&& 0xf0) >>> 4)) ::
      charAt url (((y.toNat &&& 0x0f) <<< 2) + ((z.toNat &&& 0xc0) >>> 6)) ::
      charAt url (z.toNat &&& 0x3f) :: encodeChunks url rest

variable {b : Bytes}

/-- A multiple of three below a length of 32 bits leaves room for the whole turn. -/
theorem toNat_add_of_turn (hlen : b.length < 2 ^ 32) {pos : UInt32} (hpos : 3 ∣ pos.toNat)
    (hlt : pos.toNat < b.length) :
    (pos + 1).toNat = pos.toNat + 1 ∧ (pos + 2).toNat = pos.toNat + 2 ∧
      (pos + 3).toNat = pos.toNat + 3 := by
  obtain ⟨k, hk⟩ := hpos
  have hone : (1 : UInt32).toNat = 1 := rfl
  have htwo : (2 : UInt32).toNat = 2 := rfl
  have hthree : (3 : UInt32).toNat = 3 := rfl
  rw [UInt32.toNat_add, UInt32.toNat_add, UInt32.toNat_add, hone, htwo, hthree]
  refine ⟨?_, ?_, ?_⟩ <;> omega

theorem encodeTurn_append (url : Bool) (hlen : b.length < 2 ^ 32) {pos : UInt32}
    (hpos : 3 ∣ pos.toNat) (hlt : pos.toNat < b.length) :
    encodeTurn url b pos ++ encodeChunks url (b.drop (pos.toNat + 3)) =
      encodeChunks url (b.drop pos.toNat) := by
  obtain ⟨hone, htwo, -⟩ := toNat_add_of_turn hlen hpos hlt
  have hget : ∀ i, b.getD (pos.toNat + i) 0 = (b.drop pos.toNat).getD i 0 := by
    intro i
    simp [List.getD_eq_getElem?_getD]
  have hrest : b.drop (pos.toNat + 3) = (b.drop pos.toNat).drop 3 := by rw [List.drop_drop]
  have hleft : (b.drop pos.toNat).length = b.length - pos.toNat := List.length_drop
  have hfirst : b.getD pos.toNat 0 = (b.drop pos.toNat).getD 0 0 := hget 0
  have htwice : pos.toNat + 1 < b.length ↔ 1 < (b.drop pos.toNat).length := by omega
  have hthrice : pos.toNat + 2 < b.length ↔ 2 < (b.drop pos.toNat).length := by omega
  unfold encodeTurn
  simp only [hone, htwo, hfirst, hget, hrest, htwice, hthrice]
  match hpart : b.drop pos.toNat with
  | [] =>
    rw [hpart, List.length_nil] at hleft
    omega
  | [x] => simp [encodeChunks]
  | [x, y] => simp [encodeChunks]
  | x :: y :: z :: rest => simp [encodeChunks]

theorem encodeLoop_eq (url : Bool) (hlen : b.length < 2 ^ 32) {turns : ℕ} {pos : UInt32}
    (hpos : 3 ∣ pos.toNat) (hturns : b.length < pos.toNat + turns) (hsome : 0 < turns) :
    encodeLoop url b turns pos = some (encodeChunks url (b.drop pos.toNat)) := by
  induction turns generalizing pos with
  | zero => exact absurd hsome (Nat.lt_irrefl 0)
  | succ turns ih =>
    rw [encodeLoop]
    split_ifs with hlt
    · obtain ⟨-, -, hthree⟩ := toNat_add_of_turn hlen hpos hlt
      have hnext := @ih (pos + 3) (by rw [hthree]; omega) (by rw [hthree]; omega) (by omega)
      rw [hnext, hthree]
      simp [encodeTurn_append url hlen hpos hlt]
    · rw [List.drop_of_length_le (by omega)]
      rfl

theorem base64Encode_eq (url : Bool) (hlen : b.length < 2 ^ 32) :
    base64Encode url b = some (encodeChunks url b) :=
  encodeLoop_eq url hlen (Nat.dvd_zero 3) (by simp) (Nat.succ_pos _)

/-- No number of turns is enough for a longer text: the position stays below its length. -/
theorem encodeLoop_of_long (url : Bool) (hlen : 2 ^ 32 ≤ b.length) (turns : ℕ) (pos : UInt32) :
    encodeLoop url b turns pos = none := by
  induction turns generalizing pos with
  | zero => rfl
  | succ turns ih =>
    have hpos := pos.toNat_lt
    rw [encodeLoop, if_pos (by omega), ih]
    rfl

end Encoder

/-- The early return for an empty text agrees with the loop. -/
theorem base64Decode_eq (s : Bytes) (removeLinebreaks : Bool) :
    base64Decode s removeLinebreaks =
      decodeChunks (if removeLinebreaks then s.filter (· != 10) else s) := by
  unfold base64Decode
  by_cases hempty : s = []
  · rw [if_pos hempty, hempty]
    cases removeLinebreaks <;> rfl
  · rw [if_neg hempty]
    cases removeLinebreaks <;> rfl

section Chunks

/-- The decoder works chunk by chunk: what stands in front in whole chunks, padded or not, is
decoded for itself. -/
theorem decodeChunks_append {s : Bytes} (t : Bytes) (h : 4 ∣ s.length) :
    decodeChunks (s ++ t) = do
      let out ← decodeChunks s
      let more ← decodeChunks t
      return out ++ more := by
  match s, h with
  | [], _ =>
    cases hrest : decodeChunks t with
    | none => simp [decodeChunks, hrest]
    | some out => simp [decodeChunks, hrest]
  | [_], h | [_, _], h | [_, _, _], h =>
    simp only [List.length_cons, List.length_nil] at h
    omega
  | c₀ :: c₁ :: c₂ :: c₃ :: s, h =>
    have hs : 4 ∣ s.length := by
      simp only [List.length_cons] at h
      omega
    have ih := decodeChunks_append t hs
    have hcons : c₀ :: c₁ :: c₂ :: c₃ :: s ++ t = c₀ :: c₁ :: c₂ :: c₃ :: (s ++ t) := rfl
    rw [hcons, decodeChunks, decodeChunks, ih]
    cases decodeChunk c₀ c₁ (some c₂) (some c₃) with
    | none => rfl
    | some chunk =>
      cases decodeChunks s with
      | none => rfl
      | some out =>
        cases decodeChunks t with
        | none => rfl
        | some more => simp

theorem decodeChunks_encode (url : Bool) (b : Bytes) :
    decodeChunks (encodeChunks url b) = some b := by
  match b with
  | [] => rfl
  | [x] =>
    have hx := x.toNat_lt
    simp only [encodeChunks, decodeChunks, decodeChunk, high_six hx, low_two]
    rw [posOfChar_charAt url (by omega), posOfChar_charAt url (by omega)]
    have hfirst := firstByte_eq (x := x) (m := 0) (by decide)
    rw [Nat.add_zero] at hfirst
    simp [isPadding_trailingChar, hfirst]
  | [x, y] =>
    have hx := x.toNat_lt
    have hy := y.toNat_lt
    have hlast := charAt_plain url (i := y.toNat % 16 * 4) (by omega)
    simp only [encodeChunks, decodeChunks, decodeChunk, high_six hx, low_two, high_four hy,
      low_four]
    rw [posOfChar_charAt url (by omega), posOfChar_charAt url (by omega),
      posOfChar_charAt url (by omega)]
    have hfirst := firstByte_eq (x := x) (m := y.toNat / 16) (by omega)
    have hsecond := secondByte_eq (y := y) (m := 0) (k := x.toNat % 4) (by decide) (by omega)
    rw [Nat.add_zero] at hsecond
    simp [isPadding_trailingChar, hlast.1, hfirst, hsecond]
  | x :: y :: z :: rest =>
    have hx := x.toNat_lt
    have hy := y.toNat_lt
    have hz := z.toNat_lt
    have ih := decodeChunks_encode url rest
    have hthird := charAt_plain url (i := y.toNat % 16 * 4 + z.toNat / 64) (by omega)
    have hfourth := charAt_plain url (i := z.toNat % 64) (by omega)
    simp only [encodeChunks, decodeChunks, decodeChunk, high_six hx, low_two, high_four hy,
      low_four, high_two hz, low_six, ih]
    rw [posOfChar_charAt url (by omega), posOfChar_charAt url (by omega),
      posOfChar_charAt url (by omega), posOfChar_charAt url (by omega)]
    have hfirst := firstByte_eq (x := x) (m := y.toNat / 16) (by omega)
    have hsecond := secondByte_eq (y := y) (m := z.toNat / 64) (k := x.toNat % 4) (by omega)
      (by omega)
    have hthirdByte := thirdByte_eq (z := z) (k := y.toNat % 16) (by omega)
    simp [hthird.1, hfourth.1, hfirst, hsecond, hthirdByte]

theorem encodeChunks_length (url : Bool) (b : Bytes) :
    (encodeChunks url b).length = (b.length + 2) / 3 * 4 := by
  match b with
  | [] => rfl
  | [x] => simp [encodeChunks]
  | [x, y] => simp [encodeChunks]
  | x :: y :: z :: rest =>
    have ih := encodeChunks_length url rest
    simp only [encodeChunks, List.length_cons, ih]
    omega

theorem newline_notMem_encode (url : Bool) (b : Bytes) : 10 ∉ encodeChunks url b := by
  have hplain : ∀ i < 64, (10 : UInt8) ≠ charAt url i := fun i hi => (charAt_plain url hi).2.symm
  have htrailing : (10 : UInt8) ≠ trailingChar url := by cases url <;> decide
  match b with
  | [] => exact List.not_mem_nil
  | [x] =>
    have hx := x.toNat_lt
    simp only [encodeChunks, high_six hx, low_two, List.mem_cons, not_or]
    exact ⟨hplain _ (by omega), hplain _ (by omega), htrailing, htrailing, List.not_mem_nil⟩
  | [x, y] =>
    have hx := x.toNat_lt
    have hy := y.toNat_lt
    simp only [encodeChunks, high_six hx, low_two, high_four hy, low_four, List.mem_cons, not_or]
    exact ⟨hplain _ (by omega), hplain _ (by omega), hplain _ (by omega), htrailing,
      List.not_mem_nil⟩
  | x :: y :: z :: rest =>
    have hx := x.toNat_lt
    have hy := y.toNat_lt
    have hz := z.toNat_lt
    have ih := newline_notMem_encode url rest
    simp only [encodeChunks, high_six hx, low_two, high_four hy, low_four, high_two hz, low_six,
      List.mem_cons, not_or]
    exact ⟨hplain _ (by omega), hplain _ (by omega), hplain _ (by omega), hplain _ (by omega), ih⟩

/-- A chunk that begins with a line break is rejected. -/
theorem decodeChunks_newline (t : Bytes) : decodeChunks (10 :: t) = none := by
  have hnone : ∀ c₁ c₂ c₃, decodeChunk 10 c₁ c₂ c₃ = none := by
    intro c₁ c₂ c₃
    have hten : posOfChar 10 = none := by decide
    cases hc : posOfChar c₁ with
    | none => simp [decodeChunk, hc]
    | some p₁ => simp [decodeChunk, hc, hten]
  match t with
  | [] => exact hnone _ _ _
  | [_] => exact hnone _ _ _
  | [_, _] => exact hnone _ _ _
  | c₁ :: c₂ :: c₃ :: rest => simp [decodeChunks, hnone]

end Chunks

/-- Texts of either alphabet, written one behind the other, are read as the bytes one behind the
other: padding in the middle ends a chunk and not the text. -/
theorem base64Decode_append (url url' : Bool) {b b' : Bytes} (hlen : b.length < 2 ^ 32)
    (hlen' : b'.length < 2 ^ 32) :
    ∃ text text', base64Encode url b = some text ∧ base64Encode url' b' = some text' ∧
      base64Decode (text ++ text') false = some (b ++ b') := by
  refine ⟨_, _, base64Encode_eq url hlen, base64Encode_eq url' hlen', ?_⟩
  have hlength : 4 ∣ (encodeChunks url b).length := by
    rw [encodeChunks_length]
    exact Nat.dvd_mul_left 4 _
  rw [base64Decode_eq, if_neg (by decide), decodeChunks_append _ hlength, decodeChunks_encode,
    decodeChunks_encode]
  rfl

theorem base64Decode_append_two :
    ([77, 97] : Bytes).length < 2 ^ 32 ∧ ([110] : Bytes).length < 2 ^ 32 ∧
    ∃ text text', base64Encode false [77, 97] = some text ∧ base64Encode true [110] = some text' ∧
      base64Decode (text ++ text') false = some ([77, 97] ++ [110]) :=
  ⟨by decide, by decide, base64Decode_append false true (by decide) (by decide)⟩

section LineBreaks
variable {width : ℕ}

/-- Lines of `width` characters, the last one up to `width`. -/
def linesOf (width : ℕ) (positive : 0 < width) (s : Bytes) : List Bytes :=
  if width < s.length then s.take width :: linesOf width positive (s.drop width) else [s]
  termination_by s.length
  decreasing_by
    rw [List.length_drop]
    omega

theorem insertFrom_eq (positive : 0 < width) (before s : Bytes) :
    insertFrom width positive (before ++ s) (before.length + width) =
      before ++ [10].intercalate (linesOf width positive s) := by
  induction h : s.length using Nat.strong_induction_on generalizing before s with
  | _ n ih =>
    rw [insertFrom, linesOf]
    by_cases hlong : width < s.length
    · have hpos : before.length + width < (before ++ s).length := by
        rw [List.length_append]
        omega
      have htake : (before ++ s).take (before.length + width) = before ++ s.take width := by
        rw [List.take_length_add_append]
      have hdrop : (before ++ s).drop (before.length + width) = s.drop width := by
        rw [List.drop_length_add_append]
      rw [if_pos hpos, if_pos hlong, htake, hdrop]
      have hnext := ih (s.drop width).length (by rw [List.length_drop]; omega)
        (before ++ s.take width ++ [10]) (s.drop width) rfl
      have hlen : (before ++ s.take width ++ [10]).length + width =
          before.length + width + (width + 1) := by
        simp only [List.length_append, List.length_take, List.length_cons, List.length_nil]
        omega
      rw [hlen, List.append_assoc _ [10], List.singleton_append] at hnext
      rw [hnext]
      cases hlines : linesOf width positive (s.drop width) with
      | nil =>
        rw [linesOf] at hlines
        split_ifs at hlines
      | cons line lines =>
        simp [List.intercalate_cons_cons]
    · have hpos : ¬ before.length + width < (before ++ s).length := by
        rw [List.length_append]
        omega
      rw [if_neg hpos, if_neg hlong]
      simp

theorem insertLinebreaks_eq (positive : 0 < width) (text : Bytes) :
    insertLinebreaks text width positive = [10].intercalate (linesOf width positive text) := by
  unfold insertLinebreaks
  split_ifs with hempty
  · rw [List.length_eq_zero_iff.mp hempty, linesOf]
    simp
  · have hinsert := insertFrom_eq positive [] text
    rw [List.length_nil, Nat.zero_add, List.nil_append, List.nil_append] at hinsert
    exact hinsert

theorem filter_linesOf (positive : 0 < width) {s : Bytes} (h : 10 ∉ s) :
    ([10].intercalate (linesOf width positive s)).filter (· != 10) = s := by
  induction hn : s.length using Nat.strong_induction_on generalizing s with
  | _ n ih =>
    have hself : ∀ t : Bytes, 10 ∉ t → t.filter (· != 10) = t := by
      intro t ht
      apply List.filter_eq_self.mpr
      intro c hc
      rw [bne_iff_ne]
      intro heq
      exact ht (heq ▸ hc)
    rw [linesOf]
    split_ifs with hlong
    · have hrest : 10 ∉ s.drop width := fun hc => h (List.mem_of_mem_drop hc)
      have hfirst : 10 ∉ s.take width := fun hc => h (List.mem_of_mem_take hc)
      have hnext := ih (s.drop width).length (by rw [List.length_drop]; omega) hrest rfl
      cases hlines : linesOf width positive (s.drop width) with
      | nil =>
        rw [linesOf] at hlines
        split_ifs at hlines
      | cons line lines =>
        rw [hlines] at hnext
        have hbreak : [(10 : UInt8)].filter (· != 10) = [] := rfl
        rw [List.intercalate_cons_cons, List.filter_append, List.filter_append, hself _ hfirst,
          hnext, hbreak, List.append_nil, List.take_append_drop]
    · simpa using hself s h

theorem linesOf_widths (positive : 0 < width) (s : Bytes) :
    ∀ line ∈ (linesOf width positive s).dropLast, line.length = width := by
  induction hn : s.length using Nat.strong_induction_on generalizing s with
  | _ n ih =>
    rw [linesOf]
    split_ifs with hlong
    · intro line hline
      cases hlines : linesOf width positive (s.drop width) with
      | nil =>
        rw [linesOf] at hlines
        split_ifs at hlines
      | cons next lines =>
        rw [hlines, List.dropLast_cons_cons] at hline
        rcases List.mem_cons.mp hline with rfl | hline
        · rw [List.length_take]
          omega
        · apply ih (s.drop width).length (by rw [List.length_drop]; omega) (s.drop width) rfl
          rw [hlines]
          exact hline
    · intro line hline
      simp at hline

/-- With line breaks the text is read back when they are removed first. Left in, they are an
error as soon as there is one: the lines are whole chunks, so that each begins a chunk. -/
theorem base64Decode_linebreaks (hwidth : 4 ∣ width) (positive : 0 < width) {s : Bytes}
    (hlen : s.length < 2 ^ 32) :
    ∃ lines, encodeWithLineBreaks s width positive = some ([10].intercalate lines) ∧
      (∀ line ∈ lines.dropLast, line.length = width) ∧
      base64Decode ([10].intercalate lines) true = some s ∧
      (base64Decode ([10].intercalate lines) false =
        if (s.length + 2) / 3 * 4 ≤ width then some s else none) := by
  refine ⟨linesOf width positive (encodeChunks false s), ?_, linesOf_widths positive _, ?_, ?_⟩
  · unfold encodeWithLineBreaks
    rw [base64Encode_eq false hlen]
    exact congrArg some (insertLinebreaks_eq positive _)
  · have hfilter := filter_linesOf positive (newline_notMem_encode false s)
    rw [base64Decode_eq, if_pos rfl, hfilter, decodeChunks_encode]
  · have hlength := encodeChunks_length false s
    rw [base64Decode_eq, if_neg (by decide), linesOf]
    by_cases hlong : width < (encodeChunks false s).length
    · rw [if_pos hlong, if_neg (by omega)]
      have htake : 4 ∣ ((encodeChunks false s).take width).length := by
        rw [List.length_take, Nat.min_eq_left (Nat.le_of_lt hlong)]
        exact hwidth
      cases hlines : linesOf width positive ((encodeChunks false s).drop width) with
      | nil =>
        rw [linesOf] at hlines
        split_ifs at hlines
      | cons line lines =>
        rw [List.intercalate_cons_cons, List.append_assoc, List.singleton_append,
          decodeChunks_append _ htake, decodeChunks_newline]
        cases decodeChunks ((encodeChunks false s).take width) <;> rfl
    · rw [if_neg hlong, if_pos (by omega), List.intercalate_singleton, decodeChunks_encode]

theorem base64Decode_linebreaks_pem :
    ∃ lines, base64EncodePem [77, 97] = some ([10].intercalate lines) ∧
      (∀ line ∈ lines.dropLast, line.length = 64) ∧
      base64Decode ([10].intercalate lines) true = some [77, 97] ∧
      (base64Decode ([10].intercalate lines) false =
        if (([77, 97] : Bytes).length + 2) / 3 * 4 ≤ 64 then some [77, 97] else none) :=
  base64Decode_linebreaks (s := [77, 97]) (by decide) (by decide) (by decide)

end LineBreaks

end PrivacyComputing.Base64
