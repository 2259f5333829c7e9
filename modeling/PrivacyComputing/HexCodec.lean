import PrivacyComputing.BytesObjects

/-! The hexadecimal form of `bytes`: `convert_bytes_to_hex` and `convert_hex_to_bytes` over the
arrays that `as` allocates. A thrown exception is no result; the decoder catches it and reports
a flag, on which `as` throws again. -/
namespace PrivacyComputing.HexCodec
open BytesObjects

def dec2hex (dec : UInt8) : Option UInt8 :=
  if dec ≥ 16 then none
  else if dec ≤ 9 then some (48 + dec)
  else some (97 + dec - 10)

/-- The high and the low digit. -/
def toHex (num : UInt8) : Option (UInt8 × UInt8) := do
  let low ← dec2hex (num &&& 0x0f)
  let high ← dec2hex (num >>> 4)
  return (high, low)

def hex2dec (hex : UInt8) : Option UInt8 :=
  if hex ≥ 48 ∧ hex ≤ 57 then some (hex - 48)
  else if hex ≥ 65 ∧ hex ≤ 70 then some (hex - 65 + 10)
  else if hex ≥ 97 ∧ hex ≤ 102 then some (hex - 97 + 10)
  else none

def decodeLoop (s : Bytes) (i : ℕ) (array : Bytes) : Option Bytes :=
  if h : i * 2 < s.length ∧ i * 2 + 1 < s.length then do
    let high ← hex2dec (s.get ⟨i * 2, h.1⟩)
    let low ← hex2dec (s.get ⟨i * 2 + 1, h.2⟩)
    decodeLoop s (i + 1) (array.set i ((high <<< 4) + low))
  else some array
  termination_by s.length - i * 2

/-- The target array is never null here; without a result the flag is false. -/
def convertHexToBytes (s array : Bytes) : Option Bytes :=
  if array.length < s.length / 2 then none else decodeLoop s 0 array

def encodeLoop (s : Bytes) (i : ℕ) (array : Bytes) : Option Bytes :=
  if h : i < s.length then do
    let digits ← toHex (s.get ⟨i, h⟩)
    encodeLoop s (i + 1) ((array.set (2 * i) digits.1).set (2 * i + 1) digits.2)
  else some array
  termination_by s.length - i

/-- When the array is too short it stays as it is, with a flag that `as` does not look at. -/
def convertBytesToHex (s array : Bytes) : Option Bytes :=
  if array.length < 2 * s.length then some array else encodeLoop s 0 array

def asHex (b : Bytes) : Option Bytes := convertBytesToHex b (newArray (b.length * 2))

def asRaw (s : Bytes) : Option Bytes := convertHexToBytes s (newArray (s.length / 2))

/-- The digits 0-9, a-f and A-F. -/
def HexDigit (c : UInt8) : Prop :=
  48 ≤ c ∧ c ≤ 57 ∨ 65 ≤ c ∧ c ≤ 70 ∨ 97 ≤ c ∧ c ≤ 102

def lower (c : UInt8) : UInt8 := if 65 ≤ c ∧ c ≤ 90 then c + 32 else c

/-- The characters that come in pairs: all but the last one of an odd number. -/
def paired (s : Bytes) : Bytes := s.take (s.length / 2 * 2)

/-- The decoder's loop, pair by pair. -/
def decodePairs : Bytes → Option Bytes
  | c :: c' :: rest => do
    let high ← hex2dec c
    let low ← hex2dec c'
    let bytes ← decodePairs rest
    return ((high <<< 4) + low) :: bytes
  | _ => some []

def encodePairs : Bytes → Option Bytes
  | [] => some []
  | b :: rest => do
    let digits ← toHex b
    let hex ← encodePairs rest
    return digits.1 :: digits.2 :: hex

section Digits

theorem hex2dec_eq_some_iff (c d : UInt8) : hex2dec c = some d ↔
    48 ≤ c.toNat ∧ c.toNat ≤ 57 ∧ c.toNat = d.toNat + 48 ∨
    65 ≤ c.toNat ∧ c.toNat ≤ 70 ∧ c.toNat = d.toNat + 55 ∨
    97 ≤ c.toNat ∧ c.toNat ≤ 102 ∧ c.toNat = d.toNat + 87 := by
  have hd := d.toNat_lt
  have hc := c.toNat_lt
  unfold hex2dec
  simp only [ge_iff_le, UInt8.le_iff_toNat_le, UInt8.reduceToNat]
  split_ifs with hdigit hupper hlower <;>
    simp only [Option.some.injEq, ← UInt8.toNat_inj, UInt8.toNat_add, UInt8.toNat_sub,
      UInt8.reduceToNat, false_iff] <;> omega

theorem dec2hex_eq_some_iff (d c : UInt8) : dec2hex d = some c ↔
    d.toNat ≤ 9 ∧ c.toNat = d.toNat + 48 ∨
    10 ≤ d.toNat ∧ d.toNat ≤ 15 ∧ c.toNat = d.toNat + 87 := by
  have hd := d.toNat_lt
  have hc := c.toNat_lt
  unfold dec2hex
  simp only [ge_iff_le, UInt8.le_iff_toNat_le, UInt8.reduceToNat]
  split_ifs with hlarge hnine <;>
    simp only [Option.some.injEq, ← UInt8.toNat_inj, UInt8.toNat_add, UInt8.toNat_sub,
      UInt8.reduceToNat, false_iff] <;> omega

theorem hex2dec_isSome_iff (c : UInt8) : (hex2dec c).isSome = true ↔ HexDigit c := by
  unfold hex2dec HexDigit
  split_ifs with hdigit hupper hlower <;> simp_all

theorem hex2dec_dec2hex {d c : UInt8} (h : dec2hex d = some c) : hex2dec c = some d := by
  rw [dec2hex_eq_some_iff] at h
  rw [hex2dec_eq_some_iff]
  omega

/-- Reading a digit and writing it again makes it lower case. -/
theorem dec2hex_hex2dec {c d : UInt8} (h : hex2dec c = some d) : dec2hex d = some (lower c) := by
  rw [hex2dec_eq_some_iff] at h
  rw [dec2hex_eq_some_iff]
  have hc := c.toNat_lt
  unfold lower
  simp only [UInt8.le_iff_toNat_le, UInt8.reduceToNat]
  split_ifs with hupper
  · simp only [UInt8.toNat_add, UInt8.reduceToNat]
    omega
  · omega

theorem low_toNat (num : UInt8) : (num &&& 0x0f).toNat = num.toNat % 16 := by
  rw [UInt8.toNat_and]
  exact Nat.and_two_pow_sub_one_eq_mod num.toNat 4

theorem high_toNat (num : UInt8) : (num >>> 4).toNat = num.toNat / 16 := by
  rw [UInt8.toNat_shiftRight]
  exact Nat.shiftRight_eq_div_pow num.toNat 4

theorem pack_toNat {high low : UInt8} (hhigh : high.toNat < 16) (hlow : low.toNat < 16) :
    ((high <<< 4) + low).toNat = high.toNat * 16 + low.toNat := by
  rw [UInt8.toNat_add, UInt8.toNat_shiftLeft]
  have hshift : high.toNat <<< ((4 : UInt8).toNat % 8) = high.toNat * 16 :=
    Nat.shiftLeft_eq high.toNat 4
  rw [hshift]
  omega

end Digits
section Loops

theorem decodeLoop_append (s array rest : Bytes)
    (hlen : array.length + rest.length = s.length / 2) :
    decodeLoop s array.length (array ++ rest) =
      (decodePairs (s.drop (array.length * 2))).map (array ++ ·) := by
  induction rest generalizing array with
  | nil =>
    rw [List.length_nil, Nat.add_zero] at hlen
    have hstop : ¬ (array.length * 2 < s.length ∧ array.length * 2 + 1 < s.length) := by omega
    have hshort : (s.drop (array.length * 2)).length ≤ 1 := by
      rw [List.length_drop]
      omega
    rw [decodeLoop, dif_neg hstop]
    match s.drop (array.length * 2), hshort with
    | [], _ => simp [decodePairs]
    | [c], _ => simp [decodePairs]
  | cons x rest ih =>
    rw [List.length_cons] at hlen
    have hgo : array.length * 2 < s.length ∧ array.length * 2 + 1 < s.length := by omega
    have hdrop : s.drop (array.length * 2) = s[array.length * 2] :: s[array.length * 2 + 1] ::
        s.drop ((array.length + 1) * 2) := by
      rw [List.drop_eq_getElem_cons hgo.1, List.drop_eq_getElem_cons hgo.2]
      congr 3
      omega
    rw [decodeLoop, dif_pos hgo, hdrop, decodePairs, List.get_eq_getElem, List.get_eq_getElem]
    cases hhigh : hex2dec s[array.length * 2] with
    | none => rfl
    | some high =>
      cases hlow : hex2dec s[array.length * 2 + 1] with
      | none => rfl
      | some low =>
        have hnext := ih (array ++ [(high <<< 4) + low]) (by simp; omega)
        rw [List.length_append, List.length_singleton] at hnext
        have hset : (array ++ x :: rest).set array.length ((high <<< 4) + low) =
            array ++ [(high <<< 4) + low] ++ rest := by simp
        simp only [bind, Option.bind_some, hset, hnext]
        cases decodePairs (s.drop ((array.length + 1) * 2)) <;> simp

theorem asRaw_eq (s : Bytes) : asRaw s = decodePairs s := by
  have hlen : (newArray (s.length / 2)).length = s.length / 2 := List.length_replicate
  have hloop := decodeLoop_append s [] (newArray (s.length / 2)) (by simp [hlen])
  rw [asRaw, convertHexToBytes, if_neg (by omega)]
  simpa using hloop

theorem encodeLoop_append (before after array rest : Bytes)
    (harray : array.length = 2 * before.length) (hrest : rest.length = 2 * after.length) :
    encodeLoop (before ++ after) before.length (array ++ rest) =
      (encodePairs after).map (array ++ ·) := by
  induction after generalizing before array rest with
  | nil =>
    have hnil : rest = [] := List.eq_nil_of_length_eq_zero hrest
    rw [encodeLoop, dif_neg (by simp)]
    simp [encodePairs, hnil]
  | cons b after ih =>
    match rest, hrest with
    | x :: y :: rest, hrest =>
      have hgo : before.length < (before ++ b :: after).length := by simp
      rw [encodeLoop, dif_pos hgo, encodePairs, List.get_eq_getElem,
        List.getElem_append_right (Nat.le_refl _)]
      simp only [Nat.sub_self, List.getElem_cons_zero]
      cases hdigits : toHex b with
      | none => rfl
      | some digits =>
        have hnext := ih (before ++ [b]) (array ++ [digits.1, digits.2]) rest
          (by simp [harray]; omega) (by simp at hrest; omega)
        have hset : ((array ++ x :: y :: rest).set (2 * before.length) digits.1).set
            (2 * before.length + 1) digits.2 = array ++ [digits.1, digits.2] ++ rest := by
          rw [← harray]
          simp [List.set_append_right]
        rw [List.length_append, List.length_singleton, List.append_assoc before] at hnext
        simp only [bind, Option.bind_some, hset]
        rw [← List.singleton_append, hnext]
        cases encodePairs after <;> simp

theorem asHex_eq (b : Bytes) : asHex b = encodePairs b := by
  have hlen : (newArray (b.length * 2)).length = b.length * 2 := List.length_replicate
  have hloop := encodeLoop_append [] b [] (newArray (b.length * 2)) rfl (by rw [hlen]; omega)
  rw [asHex, convertBytesToHex, if_neg (by omega)]
  simpa using hloop

end Loops
section Codec

/-- Every byte has two digits, and they name its halves. -/
theorem toHex_digits (num : UInt8) : ∃ high low, toHex num = some (high, low) ∧
    dec2hex (num >>> 4) = some high ∧ dec2hex (num &&& 0x0f) = some low := by
  have hdec : ∀ d : UInt8, d.toNat < 16 → ∃ c, dec2hex d = some c := by
    intro d hd
    have hsmall : ¬ d ≥ 16 := by
      simp only [ge_iff_le, UInt8.le_iff_toNat_le, UInt8.reduceToNat]
      omega
    rw [dec2hex, if_neg hsmall]
    split_ifs
    · exact ⟨_, rfl⟩
    · exact ⟨_, rfl⟩
  have hnum := num.toNat_lt
  obtain ⟨high, hhigh⟩ := hdec (num >>> 4) (by rw [high_toNat]; omega)
  obtain ⟨low, hlow⟩ := hdec (num &&& 0x0f) (by rw [low_toNat]; omega)
  exact ⟨high, low, by simp [toHex, hhigh, hlow], hhigh, hlow⟩

theorem halves_pack (num : UInt8) : ((num >>> 4) <<< 4) + (num &&& 0x0f) = num := by
  have hnum := num.toNat_lt
  rw [← UInt8.toNat_inj, pack_toNat (by rw [high_toNat]; omega) (by rw [low_toNat]; omega),
    high_toNat, low_toNat]
  omega

theorem hex2dec_lt {c d : UInt8} (h : hex2dec c = some d) : d.toNat < 16 := by
  rw [hex2dec_eq_some_iff] at h
  omega

theorem toHex_pack {c c' high low : UInt8} (hc : hex2dec c = some high)
    (hc' : hex2dec c' = some low) :
    toHex ((high <<< 4) + low) = some (lower c, lower c') := by
  have hhigh := hex2dec_lt hc
  have hlow := hex2dec_lt hc'
  have hpack := pack_toNat hhigh hlow
  have hfirst : ((high <<< 4) + low) >>> 4 = high := by
    rw [← UInt8.toNat_inj, high_toNat, hpack]
    omega
  have hsecond : ((high <<< 4) + low) &&& 0x0f = low := by
    rw [← UInt8.toNat_inj, low_toNat, hpack]
    omega
  simp [toHex, hfirst, hsecond, dec2hex_hex2dec hc, dec2hex_hex2dec hc']

theorem encodePairs_decode (b : Bytes) : ∃ h, encodePairs b = some h ∧ decodePairs h = some b := by
  induction b with
  | nil => exact ⟨[], rfl, rfl⟩
  | cons num rest ih =>
    obtain ⟨hex, hencode, hdecode⟩ := ih
    obtain ⟨high, low, hdigits, hhigh, hlow⟩ := toHex_digits num
    refine ⟨high :: low :: hex, by simp [encodePairs, hdigits, hencode], ?_⟩
    simp [decodePairs, hex2dec_dec2hex hhigh, hex2dec_dec2hex hlow, hdecode, halves_pack]

theorem encodePairs_length {b h : Bytes} (hencode : encodePairs b = some h) :
    h.length = b.length * 2 := by
  induction b generalizing h with
  | nil =>
    cases hencode
    rfl
  | cons num rest ih =>
    obtain ⟨hex, hrest, -⟩ := encodePairs_decode rest
    obtain ⟨high, low, hdigits, -⟩ := toHex_digits num
    simp only [encodePairs, hdigits, hrest, bind, Option.bind_some, pure,
      Option.some.injEq] at hencode
    rw [← hencode, List.length_cons, List.length_cons, ih hrest, List.length_cons]
    omega

theorem paired_cons (c c' : UInt8) (rest : Bytes) :
    paired (c :: c' :: rest) = c :: c' :: paired rest := by
  have hlen : (c :: c' :: rest).length / 2 * 2 = rest.length / 2 * 2 + 2 := by
    simp only [List.length_cons]
    omega
  rw [paired, hlen]
  rfl

theorem paired_of_even {s : Bytes} (h : s.length % 2 = 0) : paired s = s := by
  have hlen : s.length / 2 * 2 = s.length := by omega
  rw [paired, hlen, List.take_length]

theorem decodePairs_isSome_iff (s : Bytes) :
    (decodePairs s).isSome = true ↔ ∀ c ∈ paired s, HexDigit c := by
  induction s using decodePairs.induct with
  | case1 c c' rest ih =>
    rw [paired_cons, List.forall_mem_cons, List.forall_mem_cons, ← ih, ← hex2dec_isSome_iff,
      ← hex2dec_isSome_iff, decodePairs]
    cases hex2dec c with
    | none => simp
    | some high =>
      cases hex2dec c' with
      | none => simp
      | some low => cases decodePairs rest <;> simp
  | case2 s hshort =>
    match s, hshort with
    | [], _ => simp [decodePairs, paired]
    | [c], _ => simp [decodePairs, paired]
    | c :: c' :: rest, hshort => exact absurd rfl (hshort c c' rest)

theorem decodePairs_encode {s r : Bytes} (h : decodePairs s = some r) :
    encodePairs r = some ((paired s).map lower) := by
  induction s using decodePairs.induct generalizing r with
  | case1 c c' rest ih =>
    rw [decodePairs] at h
    cases hhigh : hex2dec c with
    | none => simp [hhigh] at h
    | some high =>
      cases hlow : hex2dec c' with
      | none => simp [hhigh, hlow] at h
      | some low =>
        cases hrest : decodePairs rest with
        | none => simp [hhigh, hlow, hrest] at h
        | some bytes =>
          simp only [hhigh, hlow, hrest, bind, Option.bind_some, pure, Option.some.injEq] at h
          subst h
          simp [encodePairs, toHex_pack hhigh hlow, ih hrest, paired_cons]
  | case2 s hshort =>
    match s, hshort with
    | [], _ =>
      cases h
      rfl
    | [c], _ =>
      cases h
      simp [encodePairs, paired]
    | c :: c' :: rest, hshort => exact absurd rfl (hshort c c' rest)

/-- What is written is read back and has digits only. -/
theorem asHex_digits (b : Bytes) :
    ∃ hex, asHex b = some hex ∧ asRaw hex = some b ∧ ∀ c ∈ hex, HexDigit c := by
  obtain ⟨hex, hencode, hdecode⟩ := encodePairs_decode b
  have hlength := encodePairs_length hencode
  have heven : paired hex = hex := paired_of_even (by omega)
  have hdigits := (decodePairs_isSome_iff hex).mp (by rw [hdecode]; rfl)
  rw [heven] at hdigits
  exact ⟨hex, by rw [asHex_eq, hencode], by rw [asRaw_eq, hdecode], hdigits⟩

end Codec

/-- What the hexadecimal form promises, for a byte string `b` and a character string `s`: a last
character without a partner is dropped, whatever it is. -/
theorem hex_codec (b s : Bytes) :
    (asHex b).bind asRaw = some b ∧
      ((asRaw s).isSome = true ↔ ∀ c ∈ paired s, HexDigit c) ∧
      ∀ r, asRaw s = some r → asHex r = some ((paired s).map lower) := by
  refine ⟨?_, ?_, ?_⟩
  · obtain ⟨hex, hhex, hraw, -⟩ := asHex_digits b
    rw [hhex, Option.bind_some, hraw]
  · rw [asRaw_eq]
    exact decodePairs_isSome_iff s
  · intro r hr
    rw [asRaw_eq] at hr
    rw [asHex_eq]
    exact decodePairs_encode hr

/-- "abz" is accepted as the byte of "ab". -/
theorem odd_length_accepted : asRaw [97, 98, 122] = some [171] ∧
    ¬ ∀ s : Bytes, (asRaw s).isSome = true ↔ s.length % 2 = 0 ∧ ∀ c ∈ s, HexDigit c := by
  have hraw : asRaw [97, 98, 122] = some [171] := by
    rw [asRaw_eq]
    decide
  refine ⟨hraw, ?_⟩
  intro hclaim
  have heven := ((hclaim [97, 98, 122]).mp (by rw [hraw]; rfl)).1
  cases heven

end PrivacyComputing.HexCodec
