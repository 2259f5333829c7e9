import Mathlib.Data.Set.Basic
import PrivacyComputing.AnalyzerJoint

/-! The comparisons of `bytes`. `operator<` and `operator>` hand `memcmp` the size of the left
string, and `memcmp` may read that many bytes of both: a comparison without an answer has left
the shorter string. Only strings of one length are ordered. -/
namespace PrivacyComputing.BytesOrder
open Analyzer

def memcmpWithin (n : ℕ) (a b : Bytes) : Option Ordering :=
  if n ≤ a.length ∧ n ≤ b.length then some (memcmp n a b) else none

def operatorLt (a b : Bytes) : Option Bool := (memcmpWithin a.length a b).map (· == .lt)

def operatorGt (a b : Bytes) : Option Bool := (memcmpWithin a.length a b).map (· == .gt)

def operatorEq (a b : Bytes) : Option Bool :=
  if b.length ≠ a.length then some false else (memcmpWithin a.length b a).map (· == .eq)

/-- The comparisons are a strict total order on the strings of `S` and read no foreign byte. -/
structure Ordered (S : Set Bytes) : Prop where
  inside : ∀ a ∈ S, ∀ b ∈ S,
    operatorLt a b ≠ none ∧ operatorGt a b ≠ none ∧ operatorEq a b ≠ none
  irreflexive : ∀ a ∈ S, operatorLt a a = some false
  transitive : ∀ a ∈ S, ∀ b ∈ S, ∀ c ∈ S,
    operatorLt a b = some true → operatorLt b c = some true → operatorLt a c = some true
  trichotomy : ∀ a ∈ S, ∀ b ∈ S,
    (operatorLt a b = some true ∧ operatorEq a b = some false ∧ operatorLt b a = some false) ∨
    (operatorLt a b = some false ∧ operatorEq a b = some true ∧ operatorLt b a = some false) ∨
    (operatorLt a b = some false ∧ operatorEq a b = some false ∧ operatorLt b a = some true)
  greater : ∀ a ∈ S, ∀ b ∈ S, operatorGt a b = operatorLt b a

theorem memcmp_swap (n : ℕ) (a b : Bytes) : (memcmp n a b).swap = memcmp n b a := by
  induction n generalizing a b with
  | zero => rfl
  | succ n ih =>
    cases a with
    | nil => cases b <;> rfl
    | cons x xs =>
      cases b with
      | nil => rfl
      | cons y ys =>
        rw [memcmp, memcmp]
        by_cases hlt : x < y
        · simp [hlt, UInt8.lt_asymm hlt]
        · by_cases hgt : y < x
          · simp [hlt, hgt]
          · simp [hlt, hgt, ih]

/-- Reading outside is decided by the lengths alone. -/
theorem operatorLt_eq_none_iff (a b : Bytes) : operatorLt a b = none ↔ b.length < a.length := by
  simp [operatorLt, memcmpWithin]

section SameLength
variable {a b : Bytes} (hlen : a.length = b.length)
include hlen

theorem memcmpWithin_of_length : memcmpWithin a.length a b = some (memcmp a.length a b) :=
  if_pos ⟨Nat.le_refl _, hlen.le⟩

theorem memcmp_lt_iff : memcmp a.length a b = .lt ↔ a < b := by
  rw [← memcmp_gt_iff hlen.symm, hlen, ← memcmp_swap b.length a b]
  cases memcmp b.length a b <;> simp

theorem memcmp_eq_iff : memcmp a.length a b = .eq ↔ a = b := by
  have hlt := memcmp_lt_iff hlen
  have hgt := memcmp_gt_iff hlen
  constructor
  · intro h
    rw [h] at hlt hgt
    have hnlt : ¬ a < b := fun hab => by simp [hab] at hlt
    have hngt : ¬ b < a := fun hba => by simp [hba] at hgt
    exact List.le_antisymm (List.not_lt.mp hngt) (List.not_lt.mp hnlt)
  · intro h
    subst h
    have hnot := List.lt_irrefl a
    cases hcmp : memcmp a.length a a with
    | eq => rfl
    | lt => exact absurd (hlt.mp hcmp) hnot
    | gt => exact absurd (hgt.mp hcmp) hnot

theorem operatorLt_of_length : operatorLt a b = some (decide (a < b)) := by
  rw [operatorLt, memcmpWithin_of_length hlen, Option.map_some, Option.some.injEq,
    Bool.eq_iff_iff, beq_iff_eq, decide_eq_true_iff]
  exact memcmp_lt_iff hlen

theorem operatorGt_of_length : operatorGt a b = some (decide (b < a)) := by
  rw [operatorGt, memcmpWithin_of_length hlen, Option.map_some, Option.some.injEq,
    Bool.eq_iff_iff, beq_iff_eq, decide_eq_true_iff]
  exact memcmp_gt_iff hlen

end SameLength

/-- Equality compares the sizes first and never leaves a string. -/
theorem operatorEq_eq (a b : Bytes) : operatorEq a b = some (decide (a = b)) := by
  by_cases hlen : b.length = a.length
  · rw [operatorEq, if_neg (not_not.mpr hlen), ← hlen, memcmpWithin_of_length hlen,
      Option.map_some, Option.some.injEq, Bool.eq_iff_iff, beq_iff_eq, decide_eq_true_iff,
      memcmp_eq_iff hlen]
    exact eq_comm
  · have hne : a ≠ b := fun heq => hlen (heq ▸ rfl)
    simp [operatorEq, hlen, hne]

theorem ordered_of_length {S : Set Bytes} (hlen : ∀ a ∈ S, ∀ b ∈ S, a.length = b.length) :
    Ordered S where
  inside := by
    intro a ha b hb
    rw [operatorLt_of_length (hlen a ha b hb), operatorGt_of_length (hlen a ha b hb),
      operatorEq_eq]
    simp
  irreflexive := by
    intro a _
    rw [operatorLt_of_length rfl]
    simp [List.lt_irrefl]
  transitive := by
    intro a ha b hb c hc hab hbc
    rw [operatorLt_of_length (hlen a ha b hb)] at hab
    rw [operatorLt_of_length (hlen b hb c hc)] at hbc
    rw [operatorLt_of_length (hlen a ha c hc)]
    simp only [Option.some.injEq, decide_eq_true_eq] at hab hbc ⊢
    exact List.lt_trans hab hbc
  trichotomy := by
    intro a ha b hb
    rw [operatorLt_of_length (hlen a ha b hb), operatorLt_of_length (hlen b hb a ha),
      operatorEq_eq]
    simp only [Option.some.injEq, decide_eq_true_eq, decide_eq_false_iff_not]
    rcases Std.lt_trichotomy a b with h | h | h
    · have hne : a ≠ b := fun heq => List.lt_irrefl a (heq ▸ h)
      exact Or.inl ⟨h, hne, List.lt_asymm h⟩
    · subst h
      exact Or.inr (Or.inl ⟨List.lt_irrefl a, rfl, List.lt_irrefl a⟩)
    · have hne : a ≠ b := fun heq => List.lt_irrefl a (heq ▸ h)
      exact Or.inr (Or.inr ⟨List.lt_asymm h, hne, h⟩)
  greater := by
    intro a ha b hb
    rw [operatorGt_of_length (hlen a ha b hb), operatorLt_of_length (hlen b hb a ha)]

/-- Strings of different lengths are out of order: comparing the longer with the shorter one
leaves the shorter one. -/
theorem ordered_iff (S : Set Bytes) :
    Ordered S ↔ ∀ a ∈ S, ∀ b ∈ S, a.length = b.length := by
  constructor
  · intro hordered a ha b hb
    have hab := (hordered.inside a ha b hb).1
    have hba := (hordered.inside b hb a ha).1
    rw [ne_eq, operatorLt_eq_none_iff] at hab hba
    omega
  · intro hlen
    exact ordered_of_length hlen

/-- "ab" is neither less than "abc" nor equal to it, and the other way round the comparison reads
beyond "ab". -/
theorem prefix_not_ordered :
    operatorLt [97, 98] [97, 98, 99] = some false ∧ operatorEq [97, 98] [97, 98, 99] = some false ∧
      operatorLt [97, 98, 99] [97, 98] = none ∧
      ¬ Ordered Set.univ := by
  have hless : operatorLt [97, 98] [97, 98, 99] = some false := by decide
  have hmore : operatorLt [97, 98, 99] [97, 98] = none := by decide
  have hequal : operatorEq [97, 98] [97, 98, 99] = some false := by decide
  refine ⟨hless, hequal, hmore, ?_⟩
  intro hordered
  have hinside := hordered.inside [97, 98, 99] (Set.mem_univ _) [97, 98] (Set.mem_univ _)
  exact hinside.1 hmore

end PrivacyComputing.BytesOrder
