import Mathlib.Algebra.CharP.Two
import Mathlib.Algebra.Field.ZMod
import Mathlib.FieldTheory.Finite.Basic
import Mathlib.RingTheory.AdjoinRoot

/-! Machine words as polynomials over two elements: bit `i` is the coefficient of `X^i`, exclusive
or is addition, and shift-and-add is multiplication modulo a polynomial. A polynomial whose degree
is a power of two is tested for irreducibility: the root comes back after as many squarings as the
degree, and half as many move it by a unit. -/
namespace PrivacyComputing.BinaryPolynomial
open Polynomial

section Words
variable {w : ℕ}

noncomputable def ofBits (x : BitVec w) : (ZMod 2)[X] :=
  ∑ i ∈ Finset.range w, if x.getLsbD i then X ^ i else 0

theorem coeff_ofBits (x : BitVec w) (n : ℕ) :
    (ofBits x).coeff n = if x.getLsbD n then 1 else 0 := by
  have hterm (i : ℕ) : (if x.getLsbD i then X ^ i else (0 : (ZMod 2)[X])).coeff n =
      if n = i then (if x.getLsbD n then 1 else 0) else 0 := by
    by_cases hi : n = i
    · subst hi
      by_cases hbit : x.getLsbD n <;> simp [hbit]
    · by_cases hbit : x.getLsbD i <;> simp [hbit, hi, coeff_X_pow]
  rw [ofBits, finsetSum_coeff, Finset.sum_congr rfl fun i _ => hterm i, Finset.sum_ite_eq]
  by_cases hn : n < w
  · rw [if_pos (Finset.mem_range.mpr hn)]
  · rw [if_neg (fun h => hn (Finset.mem_range.mp h)), BitVec.getLsbD_of_ge _ _ (by omega)]
    rfl

theorem ofBits_injective : Function.Injective (ofBits (w := w)) := by
  intro x y h
  apply BitVec.eq_of_getLsbD_eq
  intro i hi
  have hcoeff := congrArg (coeff · i) h
  simp only [coeff_ofBits] at hcoeff
  cases hx : x.getLsbD i <;> cases hy : y.getLsbD i <;> simp [hx, hy] at hcoeff ⊢

theorem ofBits_zero : ofBits (0 : BitVec w) = 0 := by
  ext n
  rw [coeff_ofBits]
  simp

theorem ofBits_xor (x y : BitVec w) : ofBits (x ^^^ y) = ofBits x + ofBits y := by
  ext n
  rw [coeff_add, coeff_ofBits, coeff_ofBits, coeff_ofBits, BitVec.getLsbD_xor]
  cases x.getLsbD n <;> cases y.getLsbD n <;> decide

theorem degree_ofBits_lt (x : BitVec w) : (ofBits x).degree < w := by
  rw [degree_lt_iff_coeff_zero]
  intro n hn
  rw [coeff_ofBits, BitVec.getLsbD_of_ge _ _ hn]
  rfl

lemma coeff_ite_msb (x : BitVec w) (n i : ℕ) :
    (if x.msb then X ^ n else (0 : (ZMod 2)[X])).coeff i = if x.msb ∧ i = n then 1 else 0 := by
  by_cases hmsb : x.msb
  · simp [hmsb, coeff_X_pow]
  · simp [hmsb]

/-- A shift by one loses the top coefficient. -/
theorem X_mul_ofBits (x : BitVec w) :
    X * ofBits x = ofBits (x <<< 1) + if x.msb then X ^ w else 0 := by
  ext n
  rw [coeff_add, coeff_ite_msb, coeff_ofBits, BitVec.getLsbD_shiftLeft, BitVec.msb_eq_getLsbD_last]
  cases n with
  | zero =>
    by_cases hw : w = 0
    · subst hw
      simp
    · simp [Ne.symm hw]
  | succ m =>
    rw [coeff_X_mul, coeff_ofBits, Nat.add_sub_cancel]
    rcases lt_trichotomy (m + 1) w with hlt | heq | hgt
    · simp [hlt, hlt.ne]
    · subst heq
      simp
    · rw [BitVec.getLsbD_of_ge x m (by omega)]
      simp [hgt.ne', hgt.le.not_gt]

theorem ofBits_append {v : ℕ} (x : BitVec w) (y : BitVec v) :
    ofBits (x ++ y) = X ^ v * ofBits x + ofBits y := by
  ext n
  rw [coeff_add, coeff_X_pow_mul', coeff_ofBits, coeff_ofBits, coeff_ofBits,
    BitVec.getLsbD_append]
  by_cases hn : n < v
  · simp [hn, hn.not_ge]
  · rw [BitVec.getLsbD_of_ge y n (by omega)]
    simp [hn, Nat.le_of_not_lt hn]

/-- The first `n` bits of a word from the top, as a number of their own. -/
noncomputable def leading : ℕ → BitVec w → (ZMod 2)[X]
  | 0, _ => 0
  | n + 1, x => (if x.msb then X ^ n else 0) + leading n (x <<< 1)

theorem coeff_leading (n i : ℕ) (x : BitVec w) (h : n ≤ w) :
    (leading n x).coeff i = if i < n ∧ x.getLsbD (w - n + i) then 1 else 0 := by
  induction n generalizing x with
  | zero => simp [leading]
  | succ n ih =>
    rw [leading, coeff_add, coeff_ite_msb, ih _ (by omega), BitVec.getLsbD_shiftLeft,
      BitVec.msb_eq_getLsbD_last]
    rcases lt_trichotomy i n with hlt | heq | hgt
    · have hindex : w - n + i - 1 = w - (n + 1) + i := by omega
      have hlow : w - n + i < w := by omega
      have hroom : w - n ≠ 0 := by omega
      simp [hlt, hlt.ne, hlow, hindex, hroom, Nat.lt_succ_of_lt hlt]
    · subst heq
      rw [show w - (i + 1) + i = w - 1 by omega]
      simp
    · simp [hgt.ne', hgt.not_gt, show ¬ i < n + 1 by omega]

theorem leading_eq (x : BitVec w) : leading w x = ofBits x := by
  ext i
  rw [coeff_leading w i x le_rfl, coeff_ofBits, Nat.sub_self, Nat.zero_add]
  by_cases hi : i < w
  · simp [hi]
  · simp [hi, BitVec.getLsbD_of_ge x i (by omega)]

end Words

section Residues
variable {w : ℕ}

/-- One step of the multiplication by `X` modulo `X^w + r`. -/
def mulX (r x : BitVec w) : BitVec w := if x.msb then x <<< 1 ^^^ r else x <<< 1

/-- Shift-and-add over the first `n` bits of a word from the top. -/
def shiftAdd (r a : BitVec w) {v : ℕ} : (n : ℕ) → BitVec w → BitVec v → BitVec w
  | 0, s, _ => s
  | n + 1, s, b => shiftAdd r a n (if b.msb then mulX r s ^^^ a else mulX r s) (b <<< 1)

variable {P : (ZMod 2)[X]} {r : BitVec w}

theorem modulus_monic (hP : P = X ^ w + ofBits r) : P.Monic :=
  hP ▸ monic_X_pow_add (degree_ofBits_lt r)

theorem modulus_degree (hP : P = X ^ w + ofBits r) : P.degree = w := by
  rw [hP, degree_add_eq_left_of_degree_lt (by rw [degree_X_pow]; exact degree_ofBits_lt r),
    degree_X_pow]

variable (P) in
noncomputable def residue (x : BitVec w) : AdjoinRoot P := AdjoinRoot.mk P (ofBits x)

theorem residue_injective (hP : P = X ^ w + ofBits r) :
    Function.Injective (residue P (w := w)) := by
  intro x y h
  apply ofBits_injective
  have hdegree (z : BitVec w) : (ofBits z).degree < P.degree := by
    rw [modulus_degree hP]
    exact degree_ofBits_lt z
  have hmod := congrArg (AdjoinRoot.modByMonicHom (modulus_monic hP)) h
  rw [residue, residue, AdjoinRoot.modByMonicHom_mk, AdjoinRoot.modByMonicHom_mk,
    (modByMonic_eq_self_iff (modulus_monic hP)).mpr (hdegree x),
    (modByMonic_eq_self_iff (modulus_monic hP)).mpr (hdegree y)] at hmod
  exact hmod

theorem residues_sub (x y : AdjoinRoot P) : x - y = x + y := by
  have hdouble : y + y = 0 := by
    induction y using AdjoinRoot.induction_on with
    | ih p => rw [← map_add, CharTwo.add_self_eq_zero, map_zero]
  rw [sub_eq_iff_eq_add, add_assoc, hdouble, add_zero]

theorem residue_zero : residue P (0 : BitVec w) = 0 := by
  rw [residue, ofBits_zero, map_zero]

theorem residue_xor (x y : BitVec w) : residue P (x ^^^ y) = residue P x + residue P y := by
  rw [residue, ofBits_xor, map_add]
  rfl

theorem residue_append {v : ℕ} (x : BitVec w) (y : BitVec v) :
    residue P (x ++ y) = AdjoinRoot.root P ^ v * residue P x + residue P y := by
  rw [residue, ofBits_append, map_add, map_mul, map_pow, AdjoinRoot.mk_X]
  rfl

theorem residue_mulX (hP : P = X ^ w + ofBits r) (x : BitVec w) :
    residue P (mulX r x) = AdjoinRoot.root P * residue P x := by
  have hpow : AdjoinRoot.mk P (X ^ w) = residue P r := by
    rw [residue, AdjoinRoot.mk_eq_mk, CharTwo.sub_eq_add, hP]
  have hshift := congrArg (AdjoinRoot.mk P) (X_mul_ofBits x)
  rw [map_mul, map_add, AdjoinRoot.mk_X] at hshift
  by_cases hmsb : x.msb
  · rw [if_pos hmsb, hpow] at hshift
    rw [mulX, if_pos hmsb, residue_xor]
    exact hshift.symm
  · rw [if_neg hmsb, map_zero, add_zero] at hshift
    rw [mulX, if_neg hmsb]
    exact hshift.symm

theorem residue_shiftAdd (hP : P = X ^ w + ofBits r) (a : BitVec w) {v : ℕ} (n : ℕ)
    (s : BitVec w) (b : BitVec v) :
    residue P (shiftAdd r a n s b) = AdjoinRoot.root P ^ n * residue P s +
      residue P a * AdjoinRoot.mk P (leading n b) := by
  induction n generalizing s b with
  | zero => simp [shiftAdd, leading]
  | succ n ih =>
    rw [shiftAdd, ih, leading, map_add]
    by_cases hmsb : b.msb
    · rw [if_pos hmsb, if_pos hmsb, residue_xor, residue_mulX hP, map_pow, AdjoinRoot.mk_X]
      ring
    · rw [if_neg hmsb, if_neg hmsb, residue_mulX hP, map_zero]
      ring

/-- All the bits of a word. -/
theorem residue_shiftAdd_word (hP : P = X ^ w + ofBits r) (a : BitVec w) {v : ℕ} (s : BitVec w)
    (b : BitVec v) :
    residue P (shiftAdd r a v s b) = AdjoinRoot.root P ^ v * residue P s +
      residue P a * residue P b := by
  rw [residue_shiftAdd hP, leading_eq]
  rfl

/-- The product of two words modulo `X^w + r`. -/
def mulMod (r a b : BitVec w) : BitVec w := shiftAdd r a w 0 b

theorem residue_mulMod (hP : P = X ^ w + ofBits r) (a b : BitVec w) :
    residue P (mulMod r a b) = residue P a * residue P b := by
  rw [mulMod, residue_shiftAdd_word hP, residue_zero, mul_zero, zero_add]

theorem residue_squares (hP : P = X ^ w + ofBits r) (n : ℕ) (a : BitVec w) :
    residue P ((fun x => mulMod r x x)^[n] a) = residue P a ^ 2 ^ n := by
  induction n with
  | zero => simp
  | succ n ih =>
    rw [Function.iterate_succ_apply', residue_mulMod hP, ih, ← pow_add, ← two_mul, pow_succ']

end Residues

end PrivacyComputing.BinaryPolynomial

namespace PrivacyComputing.FrobeniusTest
open Polynomial

section Factor
variable {P Q : (ZMod 2)[X]}

/-- The residues modulo a factor. -/
noncomputable def toFactor (h : Q ∣ P) : AdjoinRoot P →+* AdjoinRoot Q :=
  AdjoinRoot.lift (AdjoinRoot.of Q) (AdjoinRoot.root Q)
    (eval₂_eq_zero_of_dvd_of_eval₂_eq_zero _ _ h (AdjoinRoot.eval₂_root Q))

theorem toFactor_root (h : Q ∣ P) : toFactor h (AdjoinRoot.root P) = AdjoinRoot.root Q :=
  AdjoinRoot.lift_root _

/-- The degree of an irreducible polynomial is the number of squarings that bring its root back. -/
theorem natDegree_dvd_iff (hQ : Irreducible Q) (n : ℕ) :
    Q.natDegree ∣ n ↔ AdjoinRoot.root Q ^ 2 ^ n = AdjoinRoot.root Q := by
  have : Fact (Irreducible Q) := ⟨hQ⟩
  have : Module.Finite (ZMod 2) (AdjoinRoot Q) := (AdjoinRoot.powerBasis hQ.ne_zero).finite
  have : Finite (AdjoinRoot Q) := Module.finite_of_finite (ZMod 2)
  have horder := FiniteField.orderOf_frobeniusAlgHom (ZMod 2) (AdjoinRoot Q)
  have hrank : Module.finrank (ZMod 2) (AdjoinRoot Q) = Q.natDegree := by
    rw [(AdjoinRoot.powerBasis hQ.ne_zero).finrank, AdjoinRoot.powerBasis_dim]
  have hpow : (FiniteField.frobeniusAlgHom (ZMod 2) (AdjoinRoot Q) ^ n) (AdjoinRoot.root Q) =
      AdjoinRoot.root Q ^ 2 ^ n := by
    rw [AlgHom.coe_pow, FiniteField.coe_frobeniusAlgHom, pow_iterate, ZMod.card]
  rw [← hrank, ← horder, orderOf_dvd_iff_pow_eq_one, ← hpow]
  constructor
  · intro h
    rw [h]
    rfl
  · intro h
    exact AdjoinRoot.algHom_ext h

end Factor

theorem irreducible_of_squarings {P : (ZMod 2)[X]} {k : ℕ} (hdegree : P.natDegree = 2 ^ (k + 1))
    (hback : AdjoinRoot.root P ^ 2 ^ 2 ^ (k + 1) = AdjoinRoot.root P)
    (hunit : IsUnit (AdjoinRoot.root P ^ 2 ^ 2 ^ k - AdjoinRoot.root P)) : Irreducible P := by
  have hP : P ≠ 0 := by
    rintro rfl
    rw [natDegree_zero] at hdegree
    exact (Nat.two_pow_pos (k + 1)).ne hdegree
  have hnotunit : ¬ IsUnit P := by
    intro h
    rw [natDegree_eq_zero_of_isUnit h] at hdegree
    exact (Nat.two_pow_pos (k + 1)).ne hdegree
  obtain ⟨Q, hQ, hdvd⟩ := WfDvdMonoid.exists_irreducible_factor hnotunit hP
  have : Fact (Irreducible Q) := ⟨hQ⟩
  have hall : Q.natDegree ∣ 2 ^ (k + 1) := by
    rw [natDegree_dvd_iff hQ, ← toFactor_root hdvd, ← map_pow, hback]
  have hhalf : ¬ Q.natDegree ∣ 2 ^ k := by
    rw [natDegree_dvd_iff hQ, ← toFactor_root hdvd, ← map_pow, ← sub_eq_zero, ← map_sub]
    exact (hunit.map (toFactor hdvd)).ne_zero
  -- a divisor of a power of two that does not divide half of it is all of it
  obtain ⟨m, hm, hpow⟩ := (Nat.dvd_prime_pow Nat.prime_two).mp hall
  have htop : m = k + 1 := by
    by_contra hne
    exact hhalf (hpow ▸ pow_dvd_pow 2 (show m ≤ k by omega))
  have hassoc : Associated Q P := by
    apply associated_of_dvd_of_natDegree_le hdvd hP
    rw [hdegree, hpow, htop]
  exact hassoc.irreducible hQ

end PrivacyComputing.FrobeniusTest
