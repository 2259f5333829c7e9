import PrivacyComputing.Ghash
import PrivacyComputing.Sm4

/-! The counter mode of `sm4_modes.c` with its authentication code. -/
namespace PrivacyComputing.Sm4
open BigEndian Gf128

/-- `gmssl_memxor` over the bytes of the text. -/
def memxor (text block : Bytes) : Bytes := List.zipWith (· ^^^ ·) text block

/-- The loop of `ctr_incr` from index `i` down. Byte 0 is left alone. -/
def ctrIncrFrom : (i : ℕ) → Bytes → Bytes
  | 0, a => a
  | i + 1, a =>
    let a := a.modify (i + 1) (· + 1)
    if a.getD (i + 1) 0 ≠ 0 then a else ctrIncrFrom i a

def ctrIncr (a : Bytes) : Bytes := ctrIncrFrom 15 a

/-- The loop over the text in both directions. -/
def gcmLoop (key : Sm4Key) (Y data : Bytes) : Bytes :=
  if data.length = 0 then []
  else
    let Y := ctrIncr Y
    memxor (data.take 16) (sm4Encrypt key Y) ++ gcmLoop key Y (data.drop 16)
termination_by data.length
decreasing_by
  rw [List.length_drop]
  omega

/-- The hash key and the first counter. -/
def gcmStart (key : Sm4Key) (iv : Bytes) : Bytes × Bytes :=
  let H := sm4Encrypt key (List.replicate 16 0)
  (H, if iv.length = 12 then iv ++ [0, 0, 0, 1] else ghash H [] iv)

def sm4GcmEncrypt (key : Sm4Key) (iv aad data : Bytes) (taglen : ℕ) : Bytes × Bytes :=
  let (H, Y) := gcmStart key iv
  let T := sm4Encrypt key Y
  let out := gcmLoop key Y data
  let H := ghash H aad out
  (out, (memxor T H).take taglen)

/-- `none` is the result -1. -/
def sm4GcmDecrypt (key : Sm4Key) (iv aad data tag : Bytes) (taglen : ℕ) : Option Bytes :=
  let (H, Y) := gcmStart key iv
  let H := ghash H aad data
  let T := sm4Encrypt key Y
  let T := memxor T H
  if T.take taglen ≠ tag.take taglen then none else some (gcmLoop key Y data)

section Text

theorem sm4Encrypt_length (key : Sm4Key) (block : Bytes) : (sm4Encrypt key block).length = 16 := by
  rw [sm4Encrypt, encryptWith, storeBlock]
  simp only [List.length_append, putU32_length]

theorem memxor_length {text block : Bytes} (h : text.length ≤ block.length) :
    (memxor text block).length = text.length := by
  rw [memxor, List.length_zipWith, Nat.min_eq_left h]

theorem memxor_twice {text block : Bytes} (h : text.length ≤ block.length) :
    memxor (memxor text block) block = text := by
  induction text generalizing block with
  | nil => rfl
  | cons x text ih =>
    cases block with
    | nil => simp at h
    | cons b block =>
      have hx : x ^^^ b ^^^ b = x := by rw [UInt8.xor_assoc, UInt8.xor_self, UInt8.xor_zero]
      have htail := @ih block (by simpa using h)
      rw [memxor, memxor] at htail
      rw [memxor, memxor, List.zipWith_cons_cons, List.zipWith_cons_cons, hx, htail]

theorem memxor_comm (text block : Bytes) : memxor text block = memxor block text :=
  List.zipWith_comm_of_comm fun x y => UInt8.xor_comm x y

theorem memxor_inj {text block block' : Bytes} (h : block.length ≤ text.length)
    (h' : block'.length ≤ text.length) (heq : memxor text block = memxor text block') :
    block = block' := by
  rw [memxor_comm text, memxor_comm text] at heq
  rw [← memxor_twice h, heq, memxor_twice h']

theorem memxor_append (text xs ys : Bytes) :
    memxor text (xs ++ ys) =
      memxor (text.take xs.length) xs ++ memxor (text.drop xs.length) ys := by
  induction xs generalizing text with
  | nil => simp [memxor]
  | cons x xs ih =>
    cases text with
    | nil => rfl
    | cons b text =>
      have htail := ih text
      rw [memxor, memxor, memxor] at htail
      rw [memxor, memxor, memxor, List.cons_append, List.zipWith_cons_cons, List.length_cons,
        List.take_succ_cons, List.drop_succ_cons, List.zipWith_cons_cons, htail, List.cons_append]

/-- The counters after the first one, encrypted. -/
def keystream (key : Sm4Key) (Y : Bytes) (n : ℕ) : Bytes :=
  (List.range n).flatMap fun i => sm4Encrypt key (ctrIncr^[i + 1] Y)

theorem keystream_succ (key : Sm4Key) (Y : Bytes) (n : ℕ) :
    keystream key Y (n + 1) = sm4Encrypt key (ctrIncr Y) ++ keystream key (ctrIncr Y) n := by
  rw [keystream, List.range_succ_eq_map, List.flatMap_cons, List.flatMap_map]
  rfl

theorem keystream_length (key : Sm4Key) (Y : Bytes) (n : ℕ) :
    (keystream key Y n).length = 16 * n := by
  induction n generalizing Y with
  | zero => rfl
  | succ n ih =>
    rw [keystream_succ, List.length_append, sm4Encrypt_length, ih]
    omega

theorem gcmLoop_eq (key : Sm4Key) (Y data : Bytes) :
    gcmLoop key Y data = memxor data (keystream key Y ((data.length + 15) / 16)) := by
  induction h : data.length using Nat.strong_induction_on generalizing Y data with
  | _ n ih =>
    rw [gcmLoop]
    by_cases hnil : data.length = 0
    · rw [if_pos hnil, List.length_eq_zero_iff.mp hnil]
      rfl
    · have hcount : (n + 15) / 16 = ((data.drop 16).length + 15) / 16 + 1 := by
        rw [List.length_drop]
        omega
      have htail := ih _ (by rw [List.length_drop]; omega) (ctrIncr Y) (data.drop 16) rfl
      rw [if_neg hnil, hcount, keystream_succ, memxor_append, sm4Encrypt_length, ← htail]

theorem keystream_long (key : Sm4Key) (Y data : Bytes) :
    data.length ≤ (keystream key Y ((data.length + 15) / 16)).length := by
  rw [keystream_length]
  omega

theorem gcmLoop_length (key : Sm4Key) (Y data : Bytes) :
    (gcmLoop key Y data).length = data.length := by
  rw [gcmLoop_eq, memxor_length (keystream_long key Y data)]

/-- The same loop brings the text back. -/
theorem gcmLoop_twice (key : Sm4Key) (Y data : Bytes) :
    gcmLoop key Y (gcmLoop key Y data) = data := by
  rw [gcmLoop_eq key Y (gcmLoop key Y data), gcmLoop_length, gcmLoop_eq,
    memxor_twice (keystream_long key Y data)]

lemma modify_at_length (pre post : Bytes) (x : UInt8) (f : UInt8 → UInt8) :
    (pre ++ x :: post).modify pre.length f = pre ++ f x :: post := by
  induction pre with
  | nil => rfl
  | cons y pre ih => rw [List.cons_append, List.length_cons, List.modify_succ_cons, ih]; rfl

lemma ctrIncrFrom_succ {pre : Bytes} {i : ℕ} (h : pre.length = i + 1) (x : UInt8) (post : Bytes) :
    ctrIncrFrom (i + 1) (pre ++ x :: post) = if x + 1 ≠ 0 then pre ++ (x + 1) :: post
      else ctrIncrFrom i (pre ++ (x + 1) :: post) := by
  have hget : (pre ++ (x + 1) :: post).getD pre.length 0 = x + 1 := by simp
  rw [ctrIncrFrom, ← h]
  simp only [modify_at_length, hget]

lemma add_one_toNat (x : UInt8) : (x + 1).toNat = (x.toNat + 1) % 256 := UInt8.toNat_add x 1

lemma add_one_eq_zero (x : UInt8) : x + 1 = 0 ↔ x.toNat = 255 := by
  have hx := x.toNat_lt
  rw [← UInt8.toNat_inj, add_one_toNat]
  change (x.toNat + 1) % 256 = 0 ↔ _
  omega

/-- Behind the twelve bytes of an IV the counter counts in four bytes. -/
theorem ctrIncr_iv {iv : Bytes} (hiv : iv.length = 12) {w : UInt32} (hw : w.toNat + 1 < 2 ^ 32) :
    ctrIncr (iv ++ putU32 w) = iv ++ putU32 (w + 1) := by
  obtain ⟨a, b, c, d, hbytes⟩ : ∃ a b c d, putU32 w = [a, b, c, d] := ⟨_, _, _, _, rfl⟩
  have hword : w = getU32 [a, b, c, d] := by
    rw [← hbytes, ← List.append_nil (putU32 w), getU32_putU32]
  have hvalue : w.toNat = a.toNat * 2 ^ 24 + b.toNat * 2 ^ 16 + c.toNat * 2 ^ 8 + d.toNat := by
    rw [hword, getU32_toNat]
  have hnext (a' b' c' d' : UInt8) (h : a'.toNat * 2 ^ 24 + b'.toNat * 2 ^ 16 +
      c'.toNat * 2 ^ 8 + d'.toNat = w.toNat + 1) : putU32 (w + 1) = [a', b', c', d'] := by
    have hsum : w + 1 = getU32 [a', b', c', d'] := by
      apply UInt32.toNat_inj.mp
      rw [getU32_toNat, h, UInt32.toNat_add]
      exact Nat.mod_eq_of_lt hw
    rw [hsum, putU32_getU32 (by simp)]
    rfl
  have ha := a.toNat_lt
  have hb := b.toNat_lt
  have hc := c.toNat_lt
  have hd := d.toNat_lt
  have h15 := @ctrIncrFrom_succ (iv ++ [a, b, c]) 14 (by simp [hiv]) d []
  have h14 := @ctrIncrFrom_succ (iv ++ [a, b]) 13 (by simp [hiv]) c [d + 1]
  have h13 := @ctrIncrFrom_succ (iv ++ [a]) 12 (by simp [hiv]) b [c + 1, d + 1]
  have h12 := @ctrIncrFrom_succ iv 11 hiv a [b + 1, c + 1, d + 1]
  simp only [List.append_assoc, List.cons_append, List.nil_append] at h15 h14 h13 h12
  rw [ctrIncr, hbytes, h15]
  by_cases hd1 : d + 1 = 0
  · rw [if_neg (not_not.mpr hd1), h14]
    rw [add_one_eq_zero] at hd1
    by_cases hc1 : c + 1 = 0
    · rw [if_neg (not_not.mpr hc1), h13]
      rw [add_one_eq_zero] at hc1
      by_cases hb1 : b + 1 = 0
      · rw [if_neg (not_not.mpr hb1), h12]
        rw [add_one_eq_zero] at hb1
        by_cases ha1 : a + 1 = 0
        · rw [add_one_eq_zero] at ha1
          omega
        · rw [if_pos ha1, hnext]
          rw [add_one_eq_zero] at ha1
          rw [add_one_toNat, add_one_toNat, add_one_toNat, add_one_toNat]
          omega
      · rw [if_pos hb1, hnext]
        rw [add_one_eq_zero] at hb1
        rw [add_one_toNat, add_one_toNat, add_one_toNat]
        omega
    · rw [if_pos hc1, hnext]
      rw [add_one_eq_zero] at hc1
      rw [add_one_toNat, add_one_toNat]
      omega
  · rw [if_pos hd1, hnext]
    rw [add_one_eq_zero] at hd1
    rw [add_one_toNat]
    omega

theorem ctrIncr_iterate {iv : Bytes} (hiv : iv.length = 12) (n : ℕ) {w : UInt32}
    (hw : w.toNat + n < 2 ^ 32) :
    ctrIncr^[n] (iv ++ putU32 w) = iv ++ putU32 (w + UInt32.ofNat n) := by
  induction n with
  | zero => simp
  | succ n ih =>
    have hsum : (w + UInt32.ofNat n).toNat = w.toNat + n := by
      have hn : n < UInt32.size := (show n < 2 ^ 32 by omega).trans_le (by decide)
      rw [UInt32.toNat_add, UInt32.toNat_ofNat_of_lt' hn, Nat.mod_eq_of_lt (by omega)]
    have hsucc : w + UInt32.ofNat (n + 1) = w + UInt32.ofNat n + 1 := by
      rw [UInt32.ofNat_add, ← UInt32.add_assoc]
      rfl
    rw [Function.iterate_succ_apply', ih (by omega), ctrIncr_iv hiv (by omega), hsucc]

/-- Decryption accepts exactly what encryption produces. -/
theorem sm4GcmDecrypt_iff (key : Sm4Key) (iv aad cipher tag : Bytes) (taglen : ℕ) (data : Bytes) :
    sm4GcmDecrypt key iv aad cipher tag taglen = some data ↔
      sm4GcmEncrypt key iv aad data taglen = (cipher, tag.take taglen) := by
  simp only [sm4GcmDecrypt, sm4GcmEncrypt, Prod.mk.injEq]
  constructor
  · intro h
    split_ifs at h with htag
    obtain rfl := Option.some.inj h
    rw [gcmLoop_twice]
    exact ⟨rfl, not_not.mp htag⟩
  · rintro ⟨rfl, htag⟩
    rw [gcmLoop_twice, if_neg (not_not.mpr htag)]

/-- The cipher text does not depend on the associated data, and determines the text. -/
theorem sm4GcmEncrypt_inj {key : Sm4Key} {iv aad aad' data data' : Bytes} {taglen : ℕ}
    (h : (sm4GcmEncrypt key iv aad data taglen).1 = (sm4GcmEncrypt key iv aad' data' taglen).1) :
    data = data' := by
  change gcmLoop key (gcmStart key iv).2 data = gcmLoop key (gcmStart key iv).2 data' at h
  rw [← gcmLoop_twice key (gcmStart key iv).2 data, h, gcmLoop_twice]

theorem ghash_length (h aad c : Bytes) : (ghash h aad c).length = 16 := rfl

theorem sm4GcmEncrypt_tag (key : Sm4Key) (iv aad data : Bytes) :
    (sm4GcmEncrypt key iv aad data 16).2 = memxor (sm4Encrypt key (gcmStart key iv).2)
      (ghash (gcmStart key iv).1 aad (gcmLoop key (gcmStart key iv).2 data)) := by
  apply List.take_of_length_le
  rw [memxor_length (by rw [sm4Encrypt_length, ghash_length]), sm4Encrypt_length]

theorem sm4GcmEncrypt_tag_length (key : Sm4Key) (iv aad data : Bytes) :
    (sm4GcmEncrypt key iv aad data 16).2.length = 16 := by
  rw [sm4GcmEncrypt_tag, memxor_length (by rw [sm4Encrypt_length, ghash_length]),
    sm4Encrypt_length]

end Text

section Counters

/-- The counters of a text of `n` blocks: the one of the code, then one for each block. -/
def counters (iv : Bytes) (n : ℕ) : List Bytes :=
  (List.range (n + 1)).map fun i => iv ++ putU32 (UInt32.ofNat (i + 1))

theorem counters_inj {iv iv' : Bytes} (hiv : iv.length = 12) (hiv' : iv'.length = 12) {i j : ℕ}
    (hi : i < 2 ^ 32) (hj : j < 2 ^ 32)
    (h : iv ++ putU32 (UInt32.ofNat i) = iv' ++ putU32 (UInt32.ofNat j)) : iv = iv' ∧ i = j := by
  have hsize (k : ℕ) (hk : k < 2 ^ 32) : (UInt32.ofNat k).toNat = k :=
    UInt32.toNat_ofNat_of_lt' (hk.trans_le (by decide))
  obtain ⟨rfl, hword⟩ := List.append_inj h (by rw [hiv, hiv'])
  have hword := congrArg (fun word => (getU32 (word ++ [])).toNat) hword
  simp only [getU32_putU32, hsize _ hi, hsize _ hj] at hword
  exact ⟨rfl, hword⟩

theorem keystream_counters (key : Sm4Key) {iv : Bytes} (hiv : iv.length = 12) {n : ℕ}
    (hn : n + 1 < 2 ^ 32) :
    keystream key (iv ++ putU32 1) n = (counters iv n).tail.flatMap (sm4Encrypt key) := by
  have htail : (counters iv n).tail =
      (List.range n).map fun i => iv ++ putU32 (UInt32.ofNat (i + 2)) := by
    rw [counters, List.range_succ_eq_map, List.map_cons, List.tail_cons, List.map_map]
    rfl
  rw [htail, List.flatMap_map, keystream]
  apply List.flatMap_congr
  intro i hi
  have hlt := List.mem_range.mp hi
  have hsum : (1 : UInt32) + UInt32.ofNat (i + 1) = UInt32.ofNat (i + 2) := by
    rw [Nat.add_comm i 2, Nat.add_comm i 1, UInt32.ofNat_add, UInt32.ofNat_add 2,
      ← UInt32.add_assoc]
    rfl
  rw [ctrIncr_iterate hiv (i + 1) (show (1 : UInt32).toNat + (i + 1) < 2 ^ 32 by
    change 1 + (i + 1) < _; omega), hsum]

/-- Under one key no block goes through the cipher twice: not within a text, not for two texts
with different IVs, and none of them is the block of the hash key. -/
theorem sm4GcmEncrypt_counters (key : Sm4Key) {iv : Bytes} (hiv : iv.length = 12) (aad : Bytes)
    {data : Bytes} (hdata : data.length ≤ 16 * (2 ^ 32 - 2)) (taglen : ℕ) :
    let blocks := counters iv ((data.length + 15) / 16)
    let out := memxor data (blocks.tail.flatMap (sm4Encrypt key))
    sm4GcmEncrypt key iv aad data taglen = (out, (memxor (sm4Encrypt key (iv ++ putU32 1))
        (ghash (sm4Encrypt key (List.replicate 16 0)) aad out)).take taglen) ∧
      blocks.head? = some (iv ++ putU32 1) ∧ (List.replicate 16 0 :: blocks).Nodup ∧
      ∀ iv' n, iv'.length = 12 → iv' ≠ iv → n + 1 < 2 ^ 32 → blocks.Disjoint (counters iv' n) := by
  intro blocks out
  have hn : (data.length + 15) / 16 + 1 < 2 ^ 32 := by omega
  have hout : gcmLoop key (iv ++ putU32 1) data = out := by
    rw [gcmLoop_eq, keystream_counters key hiv hn]
  have hstart : gcmStart key iv = (sm4Encrypt key (List.replicate 16 0), iv ++ putU32 1) := by
    rw [gcmStart, if_pos hiv]
    rfl
  refine ⟨?_, ?_, ?_, ?_⟩
  · simp only [sm4GcmEncrypt, hstart, hout]
  · change (counters iv _).head? = _
    rw [counters, List.range_succ_eq_map]
    rfl
  · rw [List.nodup_cons]
    constructor
    · intro hmem
      obtain ⟨i, hi, hblock⟩ := List.mem_map.mp hmem
      have hi := List.mem_range.mp hi
      have hzero : List.replicate 16 (0 : UInt8) =
          List.replicate 12 0 ++ putU32 (UInt32.ofNat 0) := rfl
      rw [hzero] at hblock
      have hindex := (counters_inj hiv rfl (by omega) (by omega) hblock).2
      omega
    · apply List.Nodup.map_on _ List.nodup_range
      intro i hi j hj h
      have hi := List.mem_range.mp hi
      have hj := List.mem_range.mp hj
      have hindex := (counters_inj hiv hiv (by omega) (by omega) h).2
      omega
  · intro iv' n hiv' hne hn' block hblock hblock'
    obtain ⟨i, hi, rfl⟩ := List.mem_map.mp hblock
    obtain ⟨j, hj, h⟩ := List.mem_map.mp hblock'
    have hi := List.mem_range.mp hi
    have hj := List.mem_range.mp hj
    exact hne (counters_inj hiv' hiv (by omega) (by omega) h).1

theorem sm4GcmEncrypt_counters_two :
    let key : Sm4Key := ⟨List.replicate 32 0, rfl⟩
    let iv : Bytes := List.replicate 12 1
    let blocks := counters iv ((([5, 6] : Bytes).length + 15) / 16)
    let out := memxor [5, 6] (blocks.tail.flatMap (sm4Encrypt key))
    sm4GcmEncrypt key iv [] [5, 6] 16 = (out, (memxor (sm4Encrypt key (iv ++ putU32 1))
        (ghash (sm4Encrypt key (List.replicate 16 0)) [] out)).take 16) ∧
      blocks.head? = some (iv ++ putU32 1) ∧ (List.replicate 16 0 :: blocks).Nodup ∧
      ∀ iv' n, iv'.length = 12 → iv' ≠ iv → n + 1 < 2 ^ 32 → blocks.Disjoint (counters iv' n) :=
  sm4GcmEncrypt_counters _ rfl [] (by decide) 16

end Counters

end PrivacyComputing.Sm4
