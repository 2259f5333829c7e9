import Mathlib.Algebra.Polynomial.Roots

/-! Hashing by a polynomial: the data are the coefficients and the key is where it is evaluated. -/
namespace PrivacyComputing.PolynomialHash
open Polynomial

section Ring
variable {R : Type*} [CommRing R]

def horner (h : R) (bs : List R) : R := bs.foldl (fun x b => (x + b) * h) 0

theorem horner_concat (h : R) (bs : List R) (b : R) :
    horner h (bs ++ [b]) = (horner h bs + b) * h := by
  rw [horner, List.foldl_append]
  rfl

/-- Two lists that differ in one place. -/
theorem horner_sub (h b b' : R) (pre post : List R) :
    horner h (pre ++ b :: post) - horner h (pre ++ b' :: post) =
      (b - b') * h ^ (post.length + 1) := by
  induction post using List.reverseRecOn with
  | nil =>
    rw [horner_concat, horner_concat, List.length_nil]
    ring
  | append_singleton post c ih =>
    rw [← List.cons_append, ← List.cons_append, ← List.append_assoc, ← List.append_assoc,
      horner_concat, horner_concat, ← sub_mul, add_sub_add_right_eq_sub, ih, List.length_append,
      List.length_singleton]
    ring

noncomputable def polynomial (bs : List R) : R[X] := bs.foldl (fun p b => (p + C b) * X) 0

theorem polynomial_concat (bs : List R) (b : R) :
    polynomial (bs ++ [b]) = (polynomial bs + C b) * X := by
  rw [polynomial, List.foldl_append]
  rfl

theorem eval_polynomial (h : R) (bs : List R) : (polynomial bs).eval h = horner h bs := by
  induction bs using List.reverseRecOn with
  | nil => simp [polynomial, horner]
  | append_singleton bs b ih => rw [polynomial_concat, horner_concat, ← ih]; simp

theorem coeff_zero_polynomial (bs : List R) : (polynomial bs).coeff 0 = 0 := by
  induction bs using List.reverseRecOn with
  | nil => simp [polynomial]
  | append_singleton bs b _ => rw [polynomial_concat, coeff_mul_X_zero]

theorem natDegree_polynomial_le (bs : List R) : (polynomial bs).natDegree ≤ bs.length := by
  induction bs using List.reverseRecOn with
  | nil => simp [polynomial]
  | append_singleton bs b ih =>
    have hsum : (polynomial bs + C b).natDegree ≤ bs.length :=
      natDegree_add_le_of_degree_le ih (by rw [natDegree_C]; exact Nat.zero_le _)
    rw [polynomial_concat, List.length_append, List.length_singleton]
    exact natDegree_mul_le.trans (Nat.add_le_add hsum natDegree_X_le)

/-- The last element is the coefficient of `X`. -/
theorem polynomial_concat_inj [Nontrivial R] [NoZeroDivisors R] {bs bs' : List R} {b b' : R}
    (h : polynomial (bs ++ [b]) = polynomial (bs' ++ [b'])) :
    b = b' ∧ polynomial bs = polynomial bs' := by
  rw [polynomial_concat, polynomial_concat] at h
  have hsum := mul_right_cancel₀ X_ne_zero h
  have hlast := congrArg (coeff · 0) hsum
  simp only [coeff_add, coeff_zero_polynomial, coeff_C_zero, zero_add] at hlast
  subst hlast
  exact ⟨rfl, add_right_cancel hsum⟩

theorem polynomial_inj [Nontrivial R] [NoZeroDivisors R] {bs bs' : List R}
    (hlength : bs.length = bs'.length) (h : polynomial bs = polynomial bs') : bs = bs' := by
  induction bs using List.reverseRecOn generalizing bs' with
  | nil => exact (List.length_eq_zero_iff.mp hlength.symm).symm
  | append_singleton bs b ih =>
    rcases List.eq_nil_or_concat bs' with rfl | ⟨bs'', b', rfl⟩
    · simp at hlength
    · rw [List.concat_eq_append] at h hlength ⊢
      obtain ⟨rfl, htail⟩ := polynomial_concat_inj h
      rw [ih (by simpa using hlength) htail]

end Ring

section Collisions
variable {K : Type*} [Field K]

/-- Few keys give two texts a difference that was fixed before. -/
theorem horner_collisions {bs bs' : List K} (hne : polynomial bs ≠ polynomial bs') (t : K) :
    ∃ S : Finset K, S.card ≤ max bs.length bs'.length ∧
      ∀ h, horner h bs - horner h bs' = t → h ∈ S := by
  classical
  set D := polynomial bs - polynomial bs' - C t with hD
  have hDne : D ≠ 0 := by
    intro hzero
    have hconst := congrArg (coeff · 0) hzero
    simp only [hD, coeff_sub, coeff_zero_polynomial, coeff_C_zero, coeff_zero, sub_zero,
      zero_sub, neg_eq_zero] at hconst
    rw [hD, hconst, C_0, sub_zero, sub_eq_zero] at hzero
    exact hne hzero
  have hdegree : D.natDegree ≤ max bs.length bs'.length := by
    refine (natDegree_sub_le _ _).trans (max_le ?_ (by rw [natDegree_C]; exact Nat.zero_le _))
    exact (natDegree_sub_le _ _).trans
      (max_le_max (natDegree_polynomial_le bs) (natDegree_polynomial_le bs'))
  refine ⟨D.roots.toFinset, ?_, fun h hh => ?_⟩
  · exact (Multiset.toFinset_card_le _).trans ((card_roots' D).trans hdegree)
  · rw [Multiset.mem_toFinset, mem_roots hDne, IsRoot, hD, eval_sub, eval_sub, eval_polynomial,
      eval_polynomial, eval_C, hh, sub_self]

end Collisions

end PrivacyComputing.PolynomialHash
