import PrivacyComputing.BigEndian
import PrivacyComputing.BinaryPolynomial
import PrivacyComputing.CryptoPack

/-! The arithmetic of `gf128.c` on pairs of words, which is that of a field. -/
namespace PrivacyComputing
open BigEndian BinaryPolynomial Polynomial

/-- `gf128_t`. -/
structure Gf128 where
  (hi lo : UInt64)
  deriving DecidableEq, Repr

namespace Gf128

def fromBytes (p : Bytes) : Gf128 := ⟨getU64 p, getU64 (p.drop 8)⟩

def toBytes (a : Gf128) : Bytes := putU64 a.hi ++ putU64 a.lo

def zero : Gf128 := fromBytes (List.replicate 16 0)

def add (a b : Gf128) : Gf128 := ⟨a.hi ^^^ b.hi, a.lo ^^^ b.lo⟩

def mask : UInt64 := (1 : UInt64) <<< 63

def mul2 (a : Gf128) : Gf128 :=
  if a.hi &&& mask ≠ 0 then ⟨a.hi <<< 1 ||| a.lo >>> 63, a.lo <<< 1 ^^^ 0x87⟩
  else ⟨a.hi <<< 1 ||| a.lo >>> 63, a.lo <<< 1⟩

/-- One of the two loops of `gf128_mul`: the first takes the bits of `b.hi` from the top, the
second those of `b.lo`. -/
def mulLoop (a : Gf128) : (n : ℕ) → Gf128 → UInt64 → Gf128
  | 0, r, _ => r
  | n + 1, r, b => mulLoop a n (if b &&& mask ≠ 0 then add (mul2 r) a else mul2 r) (b <<< 1)

def mul (a b : Gf128) : Gf128 := mulLoop a 64 (mulLoop a 64 ⟨0, 0⟩ b.hi) b.lo

section Residues

/-- The pair as one word. -/
def bits (a : Gf128) : BitVec 128 := a.hi.toBitVec ++ a.lo.toBitVec

theorem bits_injective : Function.Injective bits := by
  intro a b h
  have hlo : a.lo = b.lo := by
    apply UInt64.eq_of_toBitVec_eq
    apply BitVec.eq_of_getLsbD_eq
    intro i hi
    have hbit := congrArg (BitVec.getLsbD · i) h
    simpa only [bits, BitVec.getLsbD_append, if_pos hi] using hbit
  have hhi : a.hi = b.hi := by
    apply UInt64.eq_of_toBitVec_eq
    rw [bits, bits, hlo, BitVec.append_left_inj] at h
    exact h
  cases a
  cases b
  cases hhi
  cases hlo
  rfl

theorem bits_add (a b : Gf128) : bits (add a b) = bits a ^^^ bits b := by
  rw [bits, bits, bits, BitVec.xor_append]
  rfl

lemma and_mask (x : UInt64) : x &&& mask ≠ 0 ↔ x.toBitVec.msb = true := by
  have htop : (x &&& mask).toBitVec = if x.toBitVec.getLsbD 63 then BitVec.twoPow 64 63 else 0 :=
    BitVec.and_twoPow x.toBitVec 63
  rw [BitVec.msb_eq_getLsbD_last, ne_eq, ← UInt64.toBitVec_inj, htop]
  by_cases hbit : x.toBitVec.getLsbD 63
  · simp [hbit]
  · simp

/-- The shift carries the top bit of the low word over. -/
lemma append_shiftLeft_one (x y : BitVec 64) :
    (x ++ y) <<< 1 = (x <<< 1 ||| y >>> 63) ++ y <<< 1 := by
  apply BitVec.eq_of_getLsbD_eq
  intro i hi
  rw [BitVec.getLsbD_shiftLeft, BitVec.getLsbD_append, BitVec.getLsbD_append, BitVec.getLsbD_or,
    BitVec.getLsbD_shiftLeft, BitVec.getLsbD_shiftLeft, BitVec.getLsbD_ushiftRight]
  rcases lt_trichotomy i 64 with hlt | heq | hgt
  · rw [if_pos (show i - 1 < 64 by omega), if_pos hlt]
    simp [hi, hlt]
  · subst heq
    simp
  · have hindex : i - 1 - 64 = i - 64 - 1 := by omega
    rw [if_neg (show ¬ i - 1 < 64 by omega), if_neg (show ¬ i < 64 by omega),
      BitVec.getLsbD_of_ge y (63 + (i - 64)) (by omega), hindex]
    simp [hi, show i - 64 < 64 by omega, show i ≠ 0 by omega, show i - 64 ≠ 0 by omega]

theorem bits_mul2 (a : Gf128) : bits (mul2 a) = mulX 0x87 (bits a) := by
  have hmsb : (bits a).msb = a.hi.toBitVec.msb := by
    rw [bits, BitVec.msb_append, if_neg (by decide)]
  have hred : (0x87 : BitVec 128) = 0#64 ++ (0x87 : BitVec 64) := rfl
  have hshift : bits a <<< 1 = (a.hi.toBitVec <<< 1 ||| a.lo.toBitVec >>> 63) ++
      a.lo.toBitVec <<< 1 := append_shiftLeft_one _ _
  rw [mulX, hmsb, hshift]
  by_cases htop : a.hi &&& mask ≠ 0
  · rw [mul2, if_pos htop, if_pos ((and_mask _).mp htop), hred, BitVec.xor_append, BitVec.xor_zero]
    rfl
  · rw [mul2, if_neg htop, if_neg (fun h => htop ((and_mask _).mpr h))]
    rfl

theorem bits_mulLoop (a : Gf128) (n : ℕ) (r : Gf128) (b : UInt64) :
    bits (mulLoop a n r b) = shiftAdd 0x87 (bits a) n (bits r) b.toBitVec := by
  induction n generalizing r b with
  | zero => rfl
  | succ n ih =>
    have hshift : (b <<< 1).toBitVec = b.toBitVec <<< 1 := rfl
    rw [mulLoop, shiftAdd, ih, hshift]
    by_cases htop : b &&& mask ≠ 0
    · rw [if_pos htop, if_pos ((and_mask _).mp htop), bits_add, bits_mul2]
    · rw [if_neg htop, if_neg (fun h => htop ((and_mask _).mpr h)), bits_mul2]

noncomputable def modulus : (ZMod 2)[X] := X ^ 128 + (X ^ 7 + X ^ 2 + X + 1)

lemma getLsbD_0x87 (n : ℕ) :
    (0x87 : BitVec 128).getLsbD n = decide (n = 7 ∨ n = 2 ∨ n = 1 ∨ n = 0) := by
  by_cases hn : n < 128
  · revert n
    decide +kernel
  · rw [BitVec.getLsbD_of_ge _ _ (by omega)]
    symm
    rw [decide_eq_false_iff_not]
    omega

theorem ofBits_0x87 : ofBits (0x87 : BitVec 128) = X ^ 7 + X ^ 2 + X + 1 := by
  ext n
  rw [coeff_ofBits, getLsbD_0x87]
  simp only [coeff_add, coeff_X_pow, coeff_X, coeff_one, decide_eq_true_eq]
  by_cases hn : n = 7 ∨ n = 2 ∨ n = 1 ∨ n = 0
  · rcases hn with rfl | rfl | rfl | rfl <;> rfl
  · have h1 : 1 ≠ n := by omega
    rw [if_neg hn]
    rw [if_neg (by omega), if_neg (by omega), if_neg h1, if_neg (by omega)]
    rfl

theorem modulus_eq : modulus = X ^ 128 + ofBits (0x87 : BitVec 128) := by
  unfold modulus
  rw [ofBits_0x87]

/-- The residue class that a pair stands for, high bit first. -/
noncomputable def value (a : Gf128) : AdjoinRoot modulus := residue modulus (bits a)

theorem value_injective : Function.Injective value :=
  (residue_injective modulus_eq).comp bits_injective

theorem value_zero : value ⟨0, 0⟩ = 0 := residue_zero

theorem value_add (a b : Gf128) : value (add a b) = value a + value b := by
  rw [value, bits_add, residue_xor]
  rfl

theorem value_mul (a b : Gf128) : value (mul a b) = value a * value b := by
  have hzero : residue modulus (bits ⟨0, 0⟩) = 0 := residue_zero
  have hb : value b = AdjoinRoot.root modulus ^ 64 * residue modulus b.hi.toBitVec +
      residue modulus b.lo.toBitVec := residue_append _ _
  rw [value, mul, bits_mulLoop, residue_shiftAdd_word modulus_eq, bits_mulLoop,
    residue_shiftAdd_word modulus_eq, hzero, mul_zero, zero_add, hb, value]
  ring

theorem value_one : value ⟨0, 1⟩ = 1 := by
  have hbits : ofBits (bits ⟨0, 1⟩) = 1 := by
    ext n
    have hbit : (bits ⟨0, 1⟩).getLsbD n = decide (n = 0) := by
      by_cases hn : n < 128
      · revert n
        decide +kernel
      · rw [BitVec.getLsbD_of_ge _ _ (by omega), decide_eq_false (by omega)]
    rw [coeff_ofBits, hbit, coeff_one]
    simp only [decide_eq_true_eq]
  rw [value, residue, hbits, map_one]

theorem value_two : value ⟨0, 2⟩ = AdjoinRoot.root modulus := by
  have htwo : bits ⟨0, 2⟩ = mulX 0x87 (bits ⟨0, 1⟩) := by decide +kernel
  rw [value, htwo, residue_mulX modulus_eq]
  change AdjoinRoot.root modulus * value ⟨0, 1⟩ = _
  rw [value_one, mul_one]

/-- Every residue class is met: the classes met contain the root and are closed under both
operations. -/
theorem value_surjective : Function.Surjective value := by
  have hpow (n : ℕ) : ∃ a, value a = AdjoinRoot.root modulus ^ n := by
    induction n with
    | zero => exact ⟨⟨0, 1⟩, value_one⟩
    | succ n ih =>
      obtain ⟨a, ha⟩ := ih
      exact ⟨mul a ⟨0, 2⟩, by rw [value_mul, ha, value_two, pow_succ]⟩
  intro y
  induction y using AdjoinRoot.induction_on with
  | ih p =>
    induction p using Polynomial.induction_on' with
    | add p q hp hq =>
      obtain ⟨a, ha⟩ := hp
      obtain ⟨b, hb⟩ := hq
      exact ⟨add a b, by rw [value_add, ha, hb, map_add]⟩
    | monomial n c =>
      obtain ⟨a, ha⟩ := hpow n
      have hc : ∀ c : ZMod 2, c = 0 ∨ c = 1 := by decide
      rcases hc c with rfl | rfl
      · exact ⟨⟨0, 0⟩, by rw [value_zero, monomial_zero_right, map_zero]⟩
      · exact ⟨a, by rw [ha, monomial_one_right_eq_X_pow, map_pow, AdjoinRoot.mk_X]⟩

end Residues

section Field

/-- `X` after 32, 64, 96 and 128 squarings. -/
lemma squares_0x2 :
    (fun x : BitVec 128 => mulMod 0x87 x x)^[32] 2 = 159741227827866894033846763158209103146 := by
  decide +kernel

lemma squares_32 : (fun x : BitVec 128 => mulMod 0x87 x x)^[32]
    159741227827866894033846763158209103146 = 129460184901158119860735353079755610614 := by
  decide +kernel

lemma squares_64 : (fun x : BitVec 128 => mulMod 0x87 x x)^[32]
    129460184901158119860735353079755610614 = 86248589110002907259851524152594849147 := by
  decide +kernel

lemma squares_96 : (fun x : BitVec 128 => mulMod 0x87 x x)^[32]
    86248589110002907259851524152594849147 = 2 := by
  decide +kernel

lemma inverse_squares_64 : mulMod (0x87 : BitVec 128) 210407306859290181404817842025723703320
    (129460184901158119860735353079755610614 ^^^ 2) = 1 := by
  decide +kernel

lemma residue_two : residue modulus (2 : BitVec 128) = AdjoinRoot.root modulus := value_two

theorem natDegree_modulus : modulus.natDegree = 2 ^ (6 + 1) := by
  have hdegree : modulus.natDegree = 128 :=
    natDegree_eq_of_degree_eq_some (modulus_degree modulus_eq)
  rw [hdegree]
  norm_num

theorem root_squares : AdjoinRoot.root modulus ^ 2 ^ 2 ^ 6 =
    residue modulus (129460184901158119860735353079755610614 : BitVec 128) := by
  have hexp : 2 ^ 6 = 32 + 32 := by norm_num
  rw [← squares_32, ← squares_0x2, ← Function.iterate_add_apply, residue_squares modulus_eq,
    residue_two, hexp]

theorem modulus_irreducible : Irreducible modulus := by
  apply FrobeniusTest.irreducible_of_squarings natDegree_modulus
  · have hexp : 2 ^ (6 + 1) = 2 ^ 6 + (32 + 32) := by norm_num
    rw [hexp, pow_add, pow_mul, root_squares, ← residue_squares modulus_eq,
      Function.iterate_add_apply, squares_64, squares_96, residue_two]
  · have hinverse := residue_mulMod modulus_eq 210407306859290181404817842025723703320
      (129460184901158119860735353079755610614 ^^^ 2)
    rw [inverse_squares_64, residue_xor, residue_two, ← root_squares] at hinverse
    have hone : residue modulus (1 : BitVec 128) = 1 := value_one
    rw [hone, mul_comm, ← residues_sub] at hinverse
    exact IsUnit.of_mul_eq_one _ hinverse.symm

instance : Fact (Irreducible modulus) := ⟨modulus_irreducible⟩

/-- The pairs are the field of residues modulo `X^128 + X^7 + X^2 + X + 1`. -/
theorem value_field : Irreducible modulus ∧ Function.Bijective value ∧ value ⟨0, 0⟩ = 0 ∧
    value ⟨0, 1⟩ = 1 ∧ (∀ a b, value (add a b) = value a + value b) ∧
      ∀ a b, value (mul a b) = value a * value b :=
  ⟨modulus_irreducible, ⟨value_injective, value_surjective⟩, value_zero, value_one, value_add,
    value_mul⟩

end Field

end Gf128

end PrivacyComputing
