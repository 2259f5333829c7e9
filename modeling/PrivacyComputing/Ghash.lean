import PrivacyComputing.Gf128
import PrivacyComputing.PolynomialHash

/-! The hash of `gcm.c`: a polynomial over the field of `gf128.c`, evaluated at the hash key. -/
namespace PrivacyComputing.Gf128
open BigEndian BinaryPolynomial PolynomialHash

/-- The bytes of a block that is not full, with zeros after them. -/
def pad16 (block : Bytes) : Bytes := block ++ List.replicate (16 - block.length) 0

/-- One of the two loops of `ghash`, over the additional data and over the cipher text. -/
def ghashLoop (H X : Gf128) (data : Bytes) : Gf128 :=
  if data.length = 0 then X
  else if 16 ≤ data.length then ghashLoop H (mul (add X (fromBytes data)) H) (data.drop 16)
  else mul (add X (fromBytes (pad16 data))) H
termination_by data.length
decreasing_by
  rw [List.length_drop]
  omega

/-- The lengths in bits, in the last block. -/
def lengthBlock (aadlen clen : ℕ) : Bytes :=
  putU64 (UInt64.ofNat aadlen <<< 3) ++ putU64 (UInt64.ofNat clen <<< 3)

def ghash (h aad c : Bytes) : Bytes :=
  let H := fromBytes h
  let L := fromBytes (lengthBlock aad.length c.length)
  let X := ghashLoop H zero aad
  let X := ghashLoop H X c
  toBytes (mul (add X L) H)

/-- A text in blocks of sixteen bytes, the last one filled up. -/
def blocks (data : Bytes) : List Bytes :=
  (List.range ((data.length + 15) / 16)).map fun i => pad16 ((data.drop (16 * i)).take 16)

theorem fromBytes_toBytes (a : Gf128) : fromBytes (toBytes a) = a := by
  have hlo : getU64 (putU64 a.lo) = a.lo := by
    rw [← List.append_nil (putU64 a.lo), getU64_putU64]
  rw [fromBytes, toBytes, getU64_putU64, List.drop_left' (putU64_length a.hi), hlo]

lemma fromBytes_take (data : Bytes) : fromBytes (data.take 16) = fromBytes data := by
  rw [fromBytes, getU64_take (by decide), List.drop_take, getU64_take (by decide)]
  rfl

theorem blocks_cons {data : Bytes} (h : data.length ≠ 0) :
    blocks data = pad16 (data.take 16) :: blocks (data.drop 16) := by
  have hcount : (data.length + 15) / 16 = ((data.drop 16).length + 15) / 16 + 1 := by
    rw [List.length_drop]
    omega
  have hblock (i : ℕ) : (data.drop (16 * (i + 1))).take 16 =
      ((data.drop 16).drop (16 * i)).take 16 := by
    rw [List.drop_drop, Nat.mul_succ, Nat.add_comm]
  rw [blocks, hcount, List.range_succ_eq_map, List.map_cons, List.map_map, blocks]
  congr 1
  apply List.map_congr_left
  intro i _
  exact congrArg pad16 (hblock i)

theorem ghashLoop_eq (H X : Gf128) (data : Bytes) :
    ghashLoop H X data =
      ((blocks data).map fromBytes).foldl (fun X b => mul (add X b) H) X := by
  induction h : data.length using Nat.strong_induction_on generalizing X data with
  | _ n ih =>
    rw [ghashLoop]
    by_cases hnil : data.length = 0
    · rw [if_pos hnil, List.length_eq_zero_iff.mp hnil]
      rfl
    · rw [if_neg hnil, blocks_cons hnil, List.map_cons, List.foldl_cons]
      by_cases hfull : 16 ≤ data.length
      · have hpad : pad16 (data.take 16) = data.take 16 := by
          rw [pad16, List.length_take, Nat.min_eq_left hfull]
          exact List.append_nil _
        rw [if_pos hfull, hpad, fromBytes_take,
          ih _ (by rw [List.length_drop]; omega) _ _ rfl]
      · rw [if_neg hfull, List.take_of_length_le (by omega),
          List.drop_eq_nil_of_le (by omega)]
        rfl

theorem value_foldl (H X : Gf128) (bs : List Gf128) :
    value (bs.foldl (fun X b => mul (add X b) H) X) =
      (bs.map value).foldl (fun x b => (x + b) * value H) (value X) := by
  induction bs generalizing X with
  | nil => rfl
  | cons b bs ih => rw [List.foldl_cons, ih, List.map_cons, List.foldl_cons, value_mul, value_add]

/-- The blocks of the data, the blocks of the cipher text and the lengths. -/
def coefficients (aad c : Bytes) : List Gf128 :=
  (blocks aad ++ blocks c).map fromBytes ++ [fromBytes (lengthBlock aad.length c.length)]

/-- The hash is a polynomial in the hash key. -/
theorem ghash_value (h aad c : Bytes) : value (fromBytes (ghash h aad c)) =
    horner (value (fromBytes h)) ((coefficients aad c).map value) := by
  have hzero : value zero = 0 := value_zero
  have hhash : fromBytes (ghash h aad c) =
      (coefficients aad c).foldl (fun X b => mul (add X b) (fromBytes h)) zero := by
    rw [ghash, fromBytes_toBytes, ghashLoop_eq, ghashLoop_eq, coefficients, List.map_append,
      List.foldl_append, List.foldl_append]
    rfl
  rw [hhash, value_foldl, hzero, horner]

section Collisions

theorem toBytes_fromBytes {p : Bytes} (h : p.length = 16) : toBytes (fromBytes p) = p := by
  rw [toBytes, fromBytes, putU64_getU64 (by omega),
    putU64_getU64 (by rw [List.length_drop]; omega),
    List.take_of_length_le (l := p.drop 8) (by rw [List.length_drop]; omega),
    List.take_append_drop]

theorem pad16_length {block : Bytes} (h : block.length ≤ 16) : (pad16 block).length = 16 := by
  rw [pad16, List.length_append, List.length_replicate]
  omega

theorem blocks_size (data : Bytes) : ∀ b ∈ blocks data, b.length = 16 := by
  intro b hb
  obtain ⟨i, -, rfl⟩ := List.mem_map.mp hb
  exact pad16_length (by rw [List.length_take]; exact Nat.min_le_left _ _)

theorem blocks_length (data : Bytes) : (blocks data).length = (data.length + 15) / 16 := by
  rw [blocks, List.length_map, List.length_range]

theorem blocks_inj {d d' : Bytes} (hlength : d.length = d'.length) (h : blocks d = blocks d') :
    d = d' := by
  induction hn : d.length using Nat.strong_induction_on generalizing d d' with
  | _ n ih =>
    by_cases hnil : d.length = 0
    · have hnil' : d'.length = 0 := hlength ▸ hnil
      rw [List.length_eq_zero_iff.mp hnil, List.length_eq_zero_iff.mp hnil']
    · have hnil' : d'.length ≠ 0 := hlength ▸ hnil
      rw [blocks_cons hnil, blocks_cons hnil', List.cons.injEq, pad16, pad16] at h
      have hhead := (List.append_inj h.1 (by rw [List.length_take, List.length_take, hlength])).1
      have htail := ih (d.drop 16).length (by rw [List.length_drop]; omega)
        (by rw [List.length_drop, List.length_drop, hlength]) h.2 rfl
      rw [← List.take_append_drop 16 d, hhead, htail, List.take_append_drop]

theorem lengthBlock_inj {a c a' c' : ℕ} (ha : a < 2 ^ 61) (hc : c < 2 ^ 61) (ha' : a' < 2 ^ 61)
    (hc' : c' < 2 ^ 61) (h : lengthBlock a c = lengthBlock a' c') : a = a' ∧ c = c' := by
  have hword (n : ℕ) (hn : n < 2 ^ 61) : (UInt64.ofNat n <<< 3).toNat = n * 8 := by
    have hsize : n < UInt64.size := (show n < 2 ^ 64 by omega).trans_le (by decide)
    rw [UInt64.toNat_shiftLeft, UInt64.toNat_ofNat_of_lt' hsize, Nat.shiftLeft_eq]
    exact Nat.mod_eq_of_lt (show n * 8 < 2 ^ 64 by omega)
  have hput (v w : UInt64) (hvw : putU64 v = putU64 w) : v = w := by
    rw [← getU64_putU64 v [], hvw, getU64_putU64]
  obtain ⟨haa, hcc⟩ := List.append_inj h (by rw [putU64_length, putU64_length])
  have haa := congrArg UInt64.toNat (hput _ _ haa)
  have hcc := congrArg UInt64.toNat (hput _ _ hcc)
  rw [hword a ha, hword a' ha'] at haa
  rw [hword c hc, hword c' hc'] at hcc
  omega

/-- The coefficients determine the text. -/
theorem coefficients_inj {aad c aad' c' : Bytes} (haad : aad.length < 2 ^ 61)
    (hc : c.length < 2 ^ 61) (haad' : aad'.length < 2 ^ 61) (hc' : c'.length < 2 ^ 61)
    (h : polynomial ((coefficients aad c).map value) =
      polynomial ((coefficients aad' c').map value)) : aad = aad' ∧ c = c' := by
  have hsplit (aad c : Bytes) : (coefficients aad c).map value =
      ((blocks aad ++ blocks c).map fromBytes).map value ++
        [value (fromBytes (lengthBlock aad.length c.length))] := List.map_append
  rw [hsplit, hsplit] at h
  obtain ⟨hlast, hinit⟩ := polynomial_concat_inj h
  have hlengths : lengthBlock aad.length c.length = lengthBlock aad'.length c'.length := by
    rw [← @toBytes_fromBytes (lengthBlock aad.length c.length) rfl, value_injective hlast,
      toBytes_fromBytes rfl]
  obtain ⟨ha, hc⟩ := lengthBlock_inj haad hc haad' hc' hlengths
  have hcount : (blocks aad ++ blocks c).length = (blocks aad' ++ blocks c').length := by
    rw [List.length_append, List.length_append, blocks_length, blocks_length, blocks_length,
      blocks_length, ha, hc]
  have hvalues := polynomial_inj (by
    rw [List.length_map, List.length_map, List.length_map, List.length_map, hcount]) hinit
  have hwords := List.map_injective_iff.mpr value_injective hvalues
  have hback (aad c : Bytes) : ((blocks aad ++ blocks c).map fromBytes).map toBytes =
      blocks aad ++ blocks c := by
    rw [List.map_map]
    refine (List.map_congr_left fun b hb => ?_).trans (List.map_id _)
    rcases List.mem_append.mp hb with hb | hb
    · exact toBytes_fromBytes (blocks_size aad b hb)
    · exact toBytes_fromBytes (blocks_size c b hb)
  have hblocks := congrArg (List.map toBytes) hwords
  rw [hback, hback] at hblocks
  obtain ⟨hblocks, hblocks'⟩ := List.append_inj hblocks (by rw [blocks_length, blocks_length, ha])
  exact ⟨blocks_inj ha hblocks, blocks_inj hc hblocks'⟩

/-- Two different texts have hashes of a difference fixed before for few hash keys. -/
theorem ghash_collisions {aad c aad' c' : Bytes} (haad : aad.length < 2 ^ 61)
    (hc : c.length < 2 ^ 61) (haad' : aad'.length < 2 ^ 61) (hc' : c'.length < 2 ^ 61)
    (hne : aad ≠ aad' ∨ c ≠ c') (t : Gf128) :
    ∃ S : Finset Gf128, S.card ≤ max ((aad.length + 15) / 16 + (c.length + 15) / 16 + 1)
        ((aad'.length + 15) / 16 + (c'.length + 15) / 16 + 1) ∧
      ∀ h, add (fromBytes (ghash h aad c)) (fromBytes (ghash h aad' c')) = t →
        fromBytes h ∈ S := by
  classical
  have hpolynomial : polynomial ((coefficients aad c).map value) ≠
      polynomial ((coefficients aad' c').map value) := by
    intro h
    obtain ⟨rfl, rfl⟩ := coefficients_inj haad hc haad' hc' h
    rcases hne with h | h <;> exact h rfl
  obtain ⟨S, hcard, hS⟩ := horner_collisions hpolynomial (value t)
  simp only [List.length_map, coefficients, List.length_append, blocks_length,
    List.length_singleton] at hcard
  refine ⟨S.preimage value value_injective.injOn, ?_, fun h ht => ?_⟩
  · have hmaps : ∀ H ∈ S.preimage value value_injective.injOn, value H ∈ S := fun H hH =>
      Finset.mem_preimage.mp hH
    exact (Finset.card_le_card_of_injOn value hmaps value_injective.injOn).trans hcard
  · rw [Finset.mem_preimage]
    apply hS
    rw [← ghash_value, ← ghash_value, residues_sub, ← value_add, ht]

theorem ghash_collisions_two :
    ∃ S : Finset Gf128, S.card ≤ max ((([1, 2] : Bytes).length + 15) / 16 +
        (([] : Bytes).length + 15) / 16 + 1) ((([1] : Bytes).length + 15) / 16 +
        (([2] : Bytes).length + 15) / 16 + 1) ∧
      ∀ h, add (fromBytes (ghash h [1, 2] [])) (fromBytes (ghash h [1] [2])) = ⟨0, 0⟩ →
        fromBytes h ∈ S :=
  ghash_collisions (by decide) (by decide) (by decide) (by decide) (.inl (by decide)) ⟨0, 0⟩

end Collisions

section OneBlock

theorem blocks_append {k : ℕ} {before : Bytes} (h : before.length = 16 * k) (after : Bytes) :
    blocks (before ++ after) = blocks before ++ blocks after := by
  induction k generalizing before with
  | zero =>
    rw [List.length_eq_zero_iff.mp h]
    rfl
  | succ k ih =>
    have hne : before.length ≠ 0 := by omega
    have hlong : (before ++ after).length ≠ 0 := by
      rw [List.length_append]
      omega
    rw [blocks_cons hlong, blocks_cons hne, List.take_append_of_le_length (by omega),
      List.drop_append_of_le_length (by omega), ih (by rw [List.length_drop]; omega),
      List.cons_append]

theorem blocks_one {block : Bytes} (h : block.length = 16) : blocks block = [block] := by
  have hpad : pad16 block = block := by
    rw [pad16, h]
    exact List.append_nil block
  rw [blocks_cons (by omega), List.take_of_length_le (by omega), List.drop_eq_nil_of_le (by omega),
    hpad]
  rfl

/-- Texts whose data differ in one block have different hashes, unless the hash key is zero. -/
theorem ghash_one_block {k : ℕ} {before block block' : Bytes} (hbefore : before.length = 16 * k)
    (hblock : block.length = 16) (hblock' : block'.length = 16) (after c h : Bytes)
    (heq : ghash h (before ++ (block ++ after)) c = ghash h (before ++ (block' ++ after)) c) :
    block = block' ∨ fromBytes h = ⟨0, 0⟩ := by
  have hvalue := congrArg (fun g => value (fromBytes g)) heq
  simp only [ghash_value] at hvalue
  have hsplit (x : Bytes) (hx : x.length = 16) :
      (coefficients (before ++ (x ++ after)) c).map value =
        ((blocks before).map fromBytes).map value ++ value (fromBytes x) ::
          (((blocks after ++ blocks c).map fromBytes ++
            [fromBytes (lengthBlock (before.length + (16 + after.length)) c.length)]).map
              value) := by
    have hone : x.length = 16 * 1 := hx
    rw [coefficients, blocks_append hbefore, blocks_append hone, blocks_one hx,
      List.length_append, List.length_append, hx]
    simp only [List.map_append, List.map_cons, List.map_nil, List.append_assoc, List.cons_append,
      List.nil_append]
  rw [hsplit block hblock, hsplit block' hblock', ← sub_eq_zero, horner_sub, mul_eq_zero] at hvalue
  rcases hvalue with hsame | hzero
  · left
    have hwords := value_injective (sub_eq_zero.mp hsame)
    rw [← toBytes_fromBytes hblock, hwords, toBytes_fromBytes hblock']
  · right
    have hkey := pow_eq_zero_iff (Nat.succ_ne_zero _) |>.mp hzero
    exact value_injective (hkey.trans value_zero.symm)

end OneBlock

end PrivacyComputing.Gf128
