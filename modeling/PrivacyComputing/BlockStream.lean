import Mathlib.Algebra.Ring.Nat
import Mathlib.Data.List.Basic
import Mathlib.Tactic.Common

/-! A stream that is taken a block at a time: whole blocks go into a state, and what is left over
waits for the next piece of the stream. -/
namespace PrivacyComputing.BlockStream

section Absorb
variable {S α : Type} (n : ℕ) (f : S → List α → S)

/-- The first `k` blocks. -/
def absorbBlocks : (k : ℕ) → S → List α → S
  | 0, s, _ => s
  | k + 1, s, xs => absorbBlocks k (f s (xs.take n)) (xs.drop n)

/-- All whole blocks, and what is left over. -/
def absorb (s : S) (xs : List α) : S × List α :=
  (absorbBlocks n f (xs.length / n) s xs, xs.drop (n * (xs.length / n)))

/-- The same with the last `w` elements, at least, left over. -/
def absorbBehind (w : ℕ) (s : S) (xs : List α) : S × List α :=
  (absorbBlocks n f ((xs.length - w) / n) s xs, xs.drop (n * ((xs.length - w) / n)))

variable {n f} {s : S}

section Behind
variable {w : ℕ}

theorem absorbBehind_of_lt {xs : List α} (h : xs.length < n + w) :
    absorbBehind n f w s xs = (s, xs) := by
  by_cases hn : n = 0
  · rw [absorbBehind, hn, Nat.div_zero]
    rfl
  · rw [absorbBehind, Nat.div_eq_of_lt (by omega)]
    rfl

theorem absorbBehind_of_le (hn : 0 < n) {xs : List α} (h : n + w ≤ xs.length) :
    absorbBehind n f w s xs = absorbBehind n f w (f s (xs.take n)) (xs.drop n) := by
  have hdiv : (xs.length - w) / n = ((xs.drop n).length - w) / n + 1 := by
    rw [List.length_drop, ← Nat.add_div_right _ hn]
    congr 1
    omega
  rw [absorbBehind, absorbBehind, hdiv, absorbBlocks, List.drop_drop, Nat.mul_succ, Nat.add_comm]

theorem absorbBehind_block (hn : 0 < n) {block xs : List α} (h : block.length = n)
    (hw : w ≤ xs.length) :
    absorbBehind n f w s (block ++ xs) = absorbBehind n f w (f s block) xs := by
  have hle : n + w ≤ (block ++ xs).length := by
    rw [List.length_append]
    omega
  rw [absorbBehind_of_le hn hle, List.take_left' h, List.drop_left' h]

theorem absorbBehind_rest_lt (hn : 0 < n) (s : S) (xs : List α) :
    (absorbBehind n f w s xs).2.length < n + w := by
  have hmod := Nat.mod_lt (xs.length - w) hn
  have hdiv := Nat.mod_add_div (xs.length - w) n
  rw [absorbBehind, List.length_drop]
  omega

/-- The order of the pieces matters, where they are cut does not. -/
theorem absorbBehind_append (hn : 0 < n) (s : S) (xs ys : List α) :
    absorbBehind n f w s (xs ++ ys) =
      absorbBehind n f w (absorbBehind n f w s xs).1 ((absorbBehind n f w s xs).2 ++ ys) := by
  induction h : xs.length using Nat.strong_induction_on generalizing s xs with
  | _ k ih =>
    by_cases hle : n + w ≤ xs.length
    · have hlong : n + w ≤ (xs ++ ys).length := by
        rw [List.length_append]
        omega
      have hshort : (xs.drop n).length < k := by
        rw [List.length_drop]
        omega
      rw [absorbBehind_of_le hn hlong, List.take_append_of_le_length (by omega),
        List.drop_append_of_le_length (by omega), ih _ hshort _ _ rfl, ← absorbBehind_of_le hn hle]
    · rw [absorbBehind_of_lt (Nat.lt_of_not_le hle)]

end Behind

theorem absorb_of_lt {xs : List α} (h : xs.length < n) : absorb n f s xs = (s, xs) :=
  absorbBehind_of_lt (w := 0) h

theorem absorb_block (hn : 0 < n) {block xs : List α} (h : block.length = n) :
    absorb n f s (block ++ xs) = absorb n f (f s block) xs :=
  absorbBehind_block hn h xs.length.zero_le

theorem absorb_rest_lt (hn : 0 < n) (s : S) (xs : List α) : (absorb n f s xs).2.length < n :=
  absorbBehind_rest_lt (w := 0) (f := f) hn s xs

theorem absorb_append (hn : 0 < n) (s : S) (xs ys : List α) :
    absorb n f s (xs ++ ys) = absorb n f (absorb n f s xs).1 ((absorb n f s xs).2 ++ ys) :=
  absorbBehind_append (w := 0) (f := f) hn s xs ys

/-- The same stream with the blocks counted. -/
def counted (f : S → List α → S) (s : S × ℕ) (block : List α) : S × ℕ := (f s.1 block, s.2 + 1)

theorem absorbBlocks_counted (k count : ℕ) (s : S) (xs : List α) :
    absorbBlocks n (counted f) k (s, count) xs = (absorbBlocks n f k s xs, count + k) := by
  induction k generalizing s count xs with
  | zero => rfl
  | succ k ih =>
    rw [absorbBlocks, absorbBlocks, counted, ih]
    congr 1
    omega

theorem absorb_counted (count : ℕ) (s : S) (xs : List α) :
    absorb n (counted f) (s, count) xs =
      (((absorb n f s xs).1, count + xs.length / n), (absorb n f s xs).2) := by
  rw [absorb, absorb, absorbBlocks_counted]

/-- A buffered update that follows the stream over one piece follows it over any number of
them. -/
theorem foldlM_simulates {C : Type} (hn : 0 < n) {update : C → List α → Option C}
    {R : C → S × List α → Prop}
    (hupdate : ∀ c s rest xs, rest.length < n → R c (s, rest) →
      ∃ c', update c xs = some c' ∧ R c' (absorb n f s (rest ++ xs)))
    (pieces : List (List α)) {c : C} {rest : List α} (hrest : rest.length < n)
    (h : R c (s, rest)) :
    ∃ c', pieces.foldlM update c = some c' ∧ R c' (absorb n f s (rest ++ pieces.flatten)) := by
  induction pieces generalizing c s rest with
  | nil =>
    rw [List.flatten_nil, List.append_nil, absorb_of_lt hrest]
    exact ⟨c, rfl, h⟩
  | cons xs pieces ih =>
    obtain ⟨c', hstep, hc'⟩ := hupdate c s rest xs hrest h
    obtain ⟨c'', hrun, hc''⟩ := ih (absorb_rest_lt hn s _) hc'
    refine ⟨c'', ?_, ?_⟩
    · rw [List.foldlM_cons, hstep]
      exact hrun
    · rw [List.flatten_cons, ← List.append_assoc, absorb_append hn]
      exact hc''

end Absorb

end PrivacyComputing.BlockStream
