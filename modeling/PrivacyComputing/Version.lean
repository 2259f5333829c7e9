import Mathlib.Data.Nat.Basic
import Mathlib.Data.Prod.Lex
import Mathlib.Data.Set.Basic
import Mathlib.Order.Lattice

/-! `ypc::version`: `operator<` tests its three components one after the other, and the
other five comparisons are built from it. The purpose is the lexicographic order; the two
agree on a set of versions exactly when its members grow in all components together. -/
namespace PrivacyComputing

structure Version where
  majorVersion : UInt32
  minorVersion : UInt16
  patchVersion : UInt16
  deriving DecidableEq, Repr

namespace Version

def operatorLt (v1 v2 : Version) : Bool :=
  if v1.majorVersion < v2.majorVersion then true
  else if v1.minorVersion < v2.minorVersion then true
  else if v1.patchVersion < v2.patchVersion then true
  else false

def operatorGt (v1 v2 : Version) : Bool := operatorLt v2 v1

def operatorGe (v1 v2 : Version) : Bool := !operatorLt v1 v2

def operatorLe (v1 v2 : Version) : Bool := !operatorGt v1 v2

def operatorEq (v1 v2 : Version) : Bool := operatorGe v1 v2 && operatorGe v2 v1

def operatorNe (v1 v2 : Version) : Bool := !operatorEq v1 v2

/-- The place of a version in the lexicographic order. -/
def rank (v : Version) : ℕ ×ₗ ℕ ×ₗ ℕ :=
  toLex (v.majorVersion.toNat, toLex (v.minorVersion.toNat, v.patchVersion.toNat))

/-- Every component of `v` is at most that of `w`. -/
def Below (v w : Version) : Prop :=
  v.majorVersion ≤ w.majorVersion ∧ v.minorVersion ≤ w.minorVersion ∧
    v.patchVersion ≤ w.patchVersion

/-- On the versions of `S` the comparisons are the lexicographic strict total order. -/
structure Lexicographic (S : Set Version) : Prop where
  irreflexive : ∀ v ∈ S, operatorLt v v = false
  asymmetric : ∀ v ∈ S, ∀ w ∈ S, operatorLt v w = true → operatorLt w v = false
  transitive : ∀ u ∈ S, ∀ v ∈ S, ∀ w ∈ S,
    operatorLt u v = true → operatorLt v w = true → operatorLt u w = true
  total : ∀ v ∈ S, ∀ w ∈ S, operatorLt v w = true ∨ v = w ∨ operatorLt w v = true
  less : ∀ v ∈ S, ∀ w ∈ S, (operatorLt v w = true ↔ v.rank < w.rank)
  greater : ∀ v ∈ S, ∀ w ∈ S, (operatorGt v w = true ↔ w.rank < v.rank)
  lessEqual : ∀ v ∈ S, ∀ w ∈ S, (operatorLe v w = true ↔ v.rank ≤ w.rank)
  greaterEqual : ∀ v ∈ S, ∀ w ∈ S, (operatorGe v w = true ↔ w.rank ≤ v.rank)
  equal : ∀ v ∈ S, ∀ w ∈ S, (operatorEq v w = true ↔
    v.majorVersion = w.majorVersion ∧ v.minorVersion = w.minorVersion ∧
      v.patchVersion = w.patchVersion)
  notEqual : ∀ v ∈ S, ∀ w ∈ S, (operatorNe v w = true ↔ v ≠ w)

theorem operatorLt_iff (v w : Version) :
    operatorLt v w = true ↔ v.majorVersion < w.majorVersion ∨
      v.minorVersion < w.minorVersion ∨ v.patchVersion < w.patchVersion := by
  unfold operatorLt
  split_ifs <;> simp_all

theorem operatorLt_eq_false_iff (v w : Version) : operatorLt v w = false ↔ Below w v := by
  rw [← Bool.not_eq_true, operatorLt_iff]
  simp [Below]

theorem below_antisymm {v w : Version} (h : Below v w) (h' : Below w v) : v = w := by
  obtain ⟨hmajor, hminor, hpatch⟩ := h
  obtain ⟨hmajor', hminor', hpatch'⟩ := h'
  cases v
  cases w
  rw [Version.mk.injEq]
  exact ⟨UInt32.le_antisymm hmajor hmajor', UInt16.le_antisymm hminor hminor',
    UInt16.le_antisymm hpatch hpatch'⟩

theorem below_refl (v : Version) : Below v v :=
  ⟨UInt32.le_refl _, UInt16.le_refl _, UInt16.le_refl _⟩

/-- Equality is right although it is built from `operator<`: it asks that no component be less
either way. -/
theorem operatorEq_iff (v w : Version) : operatorEq v w = true ↔ v = w := by
  constructor
  · intro h
    simp only [operatorEq, operatorGe, Bool.and_eq_true, Bool.not_eq_true',
      operatorLt_eq_false_iff] at h
    exact below_antisymm h.2 h.1
  · intro h
    subst h
    have hv := (operatorLt_eq_false_iff v v).mpr (below_refl v)
    simp [operatorEq, operatorGe, hv]

theorem rank_le_of_below {v w : Version} (h : Below v w) : v.rank ≤ w.rank := by
  obtain ⟨hmajor, hminor, hpatch⟩ := h
  rw [UInt32.le_iff_toNat_le] at hmajor
  rw [UInt16.le_iff_toNat_le] at hminor hpatch
  simp only [rank, Prod.Lex.toLex_le_toLex]
  omega

theorem rank_injective {v w : Version} (h : v.rank = w.rank) : v = w := by
  simp only [rank, EmbeddingLike.apply_eq_iff_eq, Prod.mk.injEq, UInt32.toNat_inj,
    UInt16.toNat_inj] at h
  cases v
  cases w
  rw [Version.mk.injEq]
  exact h

section Chain
variable {S : Set Version} (hchain : ∀ v ∈ S, ∀ w ∈ S, Below v w ∨ Below w v)
include hchain

/-- Among versions that grow together a component decides alone. -/
theorem operatorLt_iff_rank {v w : Version} (hv : v ∈ S) (hw : w ∈ S) :
    operatorLt v w = true ↔ v.rank < w.rank := by
  constructor
  · intro h
    have hnot : ¬ Below w v := by
      rw [← operatorLt_eq_false_iff, h]
      simp
    have hle := rank_le_of_below ((hchain v hv w hw).resolve_right hnot)
    refine lt_of_le_of_ne hle fun heq => hnot ?_
    rw [rank_injective heq]
    exact below_refl w
  · intro h
    by_contra hlt
    rw [Bool.not_eq_true, operatorLt_eq_false_iff] at hlt
    exact absurd (rank_le_of_below hlt) (not_le.mpr h)

theorem operatorLt_eq_false_iff_rank {v w : Version} (hv : v ∈ S) (hw : w ∈ S) :
    operatorLt v w = false ↔ w.rank ≤ v.rank := by
  rw [← Bool.not_eq_true, operatorLt_iff_rank hchain hv hw, not_lt]

theorem lexicographic_of_chain : Lexicographic S where
  irreflexive := by
    intro v hv
    rw [operatorLt_eq_false_iff_rank hchain hv hv]
  asymmetric := by
    intro v hv w hw h
    rw [operatorLt_iff_rank hchain hv hw] at h
    rw [operatorLt_eq_false_iff_rank hchain hw hv]
    exact h.le
  transitive := by
    intro u hu v hv w hw huv hvw
    rw [operatorLt_iff_rank hchain hu hv] at huv
    rw [operatorLt_iff_rank hchain hv hw] at hvw
    rw [operatorLt_iff_rank hchain hu hw]
    exact huv.trans hvw
  total := by
    intro v hv w hw
    rw [operatorLt_iff_rank hchain hv hw, operatorLt_iff_rank hchain hw hv]
    rcases lt_trichotomy v.rank w.rank with h | h | h
    · exact Or.inl h
    · exact Or.inr (Or.inl (rank_injective h))
    · exact Or.inr (Or.inr h)
  less := by
    intro v hv w hw
    exact operatorLt_iff_rank hchain hv hw
  greater := by
    intro v hv w hw
    exact operatorLt_iff_rank hchain hw hv
  lessEqual := by
    intro v hv w hw
    rw [operatorLe, operatorGt, Bool.not_eq_true', operatorLt_eq_false_iff_rank hchain hw hv]
  greaterEqual := by
    intro v hv w hw
    rw [operatorGe, Bool.not_eq_true', operatorLt_eq_false_iff_rank hchain hv hw]
  equal := by
    intro v _ w _
    rw [operatorEq_iff]
    cases v
    cases w
    rw [Version.mk.injEq]
  notEqual := by
    intro v _ w _
    rw [operatorNe, Bool.not_eq_true', ← Bool.not_eq_true, operatorEq_iff]

end Chain

/-- Two versions with components ordered in opposite directions are each less than the other;
without such a pair the comparisons are the lexicographic order. -/
theorem comparisons_lexicographic_iff (S : Set Version) :
    Lexicographic S ↔ ∀ v ∈ S, ∀ w ∈ S, Below v w ∨ Below w v := by
  constructor
  · intro hlex v hv w hw
    by_contra hopposite
    rw [not_or, ← operatorLt_eq_false_iff, ← operatorLt_eq_false_iff, Bool.not_eq_false,
      Bool.not_eq_false] at hopposite
    have hless := hlex.asymmetric w hw v hv hopposite.1
    rw [hopposite.2] at hless
    cases hless
  · intro hchain
    exact lexicographic_of_chain hchain

theorem opposite_components_both_less :
    operatorLt ⟨1, 1, 0⟩ ⟨2, 0, 0⟩ = true ∧ operatorLt ⟨2, 0, 0⟩ ⟨1, 1, 0⟩ = true ∧
      operatorGt ⟨2, 0, 0⟩ ⟨1, 1, 0⟩ = true ∧ operatorGe ⟨2, 0, 0⟩ ⟨1, 1, 0⟩ = false ∧
      ¬ Lexicographic Set.univ := by
  have hless : operatorLt ⟨1, 1, 0⟩ ⟨2, 0, 0⟩ = true := by decide
  have hmore : operatorLt ⟨2, 0, 0⟩ ⟨1, 1, 0⟩ = true := by decide
  refine ⟨hless, hmore, hless, by decide, ?_⟩
  intro hlex
  have hfalse := hlex.asymmetric _ (Set.mem_univ _) _ (Set.mem_univ _) hless
  rw [hmore] at hfalse
  cases hfalse

end Version
end PrivacyComputing
