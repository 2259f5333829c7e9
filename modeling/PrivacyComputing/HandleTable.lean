import Mathlib.Logic.Function.Basic
import Mathlib.Tactic.Common

/-! A table of resources that are reached by number. The numbers are counted up from one and zero
is no number, so that owners who keep only a number own their resources alone. -/
namespace PrivacyComputing.HandleTable

variable {Owner R : Type*}

structure Table (R : Type*) where
  next : ℕ
  entries : ℕ → Option R

/-- The table with a new entry, under the next number. -/
def Table.push (t : Table R) (r : R) : Table R :=
  ⟨t.next + 1, Function.update t.entries t.next (some r)⟩

def Table.put (t : Table R) (i : ℕ) (entry : Option R) : Table R :=
  ⟨t.next, Function.update t.entries i entry⟩

theorem Table.push_self (t : Table R) (r : R) : (t.push r).entries t.next = some r :=
  Function.update_self _ _ _

theorem Table.push_of_ne (t : Table R) (r : R) {i : ℕ} (h : i ≠ t.next) :
    (t.push r).entries i = t.entries i :=
  Function.update_of_ne h _ _

theorem Table.put_self (t : Table R) (i : ℕ) (entry : Option R) :
    (t.put i entry).entries i = entry :=
  Function.update_self _ _ _

theorem Table.put_of_ne (t : Table R) {i j : ℕ} (entry : Option R) (h : j ≠ i) :
    (t.put i entry).entries j = t.entries j :=
  Function.update_of_ne h _ _

/-- Every owner with a resource has a number of its own, at which the table has the resource. -/
structure Owns (t : Table R) (ids : Owner → ℕ) (owned : Owner → Option R) : Prop where
  positive : 0 < t.next
  fresh : ∀ i, t.next ≤ i → t.entries i = none
  below : ∀ o, ids o < t.next
  closed : ∀ o, owned o = none ↔ ids o = 0
  found : ∀ o r, owned o = some r → t.entries (ids o) = some r
  apart : ∀ o o', ids o = ids o' → ids o ≠ 0 → o = o'

def empty : Table R := ⟨1, fun _ => none⟩

theorem owns_empty : Owns (empty : Table R) (fun _ : Owner => 0) (fun _ => none) where
  positive := Nat.one_pos
  fresh _ _ := rfl
  below _ := Nat.one_pos
  closed _ := by simp
  found _ _ h := by cases h
  apart _ _ _ h := absurd rfl h

section Steps
variable {t : Table R} {ids : Owner → ℕ} {owned : Owner → Option R}

theorem Owns.closed_of_zero (h : Owns t ids owned) {o : Owner} (ho : ids o = 0) :
    owned o = none := (h.closed o).mpr ho

theorem Owns.exists_of_ne_zero (h : Owns t ids owned) {o : Owner} (ho : ids o ≠ 0) :
    ∃ r, owned o = some r ∧ t.entries (ids o) = some r := by
  cases hown : owned o with
  | none => exact absurd ((h.closed o).mp hown) ho
  | some r => exact ⟨r, rfl, h.found o r hown⟩

/-- A new entry changes nothing for the owners. -/
theorem Owns.leave (h : Owns t ids owned) (r : R) :
    Owns (t.push r) ids owned where
  positive := Nat.succ_pos _
  fresh i hi := by
    have hi' : t.next + 1 ≤ i := hi
    rw [t.push_of_ne r (by omega)]
    exact h.fresh i (by omega)
  below o := Nat.lt_succ_of_lt (h.below o)
  closed := h.closed
  found o r' ho := by
    rw [t.push_of_ne r (Nat.ne_of_lt (h.below o))]
    exact h.found o r' ho
  apart := h.apart

variable [DecidableEq Owner]

/-- A new entry for an owner, whatever it owned before. -/
theorem Owns.give (h : Owns t ids owned) (o : Owner) (r : R) :
    Owns (t.push r) (Function.update ids o t.next)
      (Function.update owned o (some r)) where
  positive := Nat.succ_pos _
  fresh := (h.leave r).fresh
  below o' := by
    by_cases heq : o' = o
    · rw [heq, Function.update_self]
      exact Nat.lt_succ_self _
    · rw [Function.update_of_ne heq]
      exact Nat.lt_succ_of_lt (h.below o')
  closed o' := by
    have hpositive := h.positive
    by_cases heq : o' = o
    · rw [heq, Function.update_self, Function.update_self]
      simp only [reduceCtorEq, false_iff]
      omega
    · rw [Function.update_of_ne heq, Function.update_of_ne heq]
      exact h.closed o'
  found o' r' ho := by
    by_cases heq : o' = o
    · rw [heq, Function.update_self] at ho
      rw [heq, Function.update_self, t.push_self, ho]
    · rw [Function.update_of_ne heq] at ho
      rw [Function.update_of_ne heq, t.push_of_ne r (Nat.ne_of_lt (h.below o'))]
      exact h.found o' r' ho
  apart o₁ o₂ hids hne := by
    by_cases h₁ : o₁ = o
    · by_cases h₂ : o₂ = o
      · rw [h₁, h₂]
      · rw [h₁, Function.update_self, Function.update_of_ne h₂] at hids
        exact absurd hids.symm (Nat.ne_of_lt (h.below o₂))
    · rw [Function.update_of_ne h₁] at hids hne
      by_cases h₂ : o₂ = o
      · rw [h₂, Function.update_self] at hids
        exact absurd hids (Nat.ne_of_lt (h.below o₁))
      · rw [Function.update_of_ne h₂] at hids
        exact h.apart o₁ o₂ hids hne

/-- A step on the resource of one owner is not seen by the others. -/
theorem Owns.change (h : Owns t ids owned) {o : Owner} {r : R} (ho : owned o = some r) (r' : R) :
    Owns (t.put (ids o) (some r')) ids
      (Function.update owned o (some r')) where
  positive := h.positive
  fresh i hi := by
    have hbelow := h.below o
    have hi' : t.next ≤ i := hi
    rw [t.put_of_ne _ (by omega)]
    exact h.fresh i hi
  below := h.below
  closed o' := by
    by_cases heq : o' = o
    · have hiff := h.closed o
      rw [ho] at hiff
      rw [heq, Function.update_self]
      simpa using hiff
    · rw [Function.update_of_ne heq]
      exact h.closed o'
  found o' r'' ho' := by
    by_cases heq : o' = o
    · rw [heq, Function.update_self] at ho'
      rw [heq, t.put_self, ho']
    · rw [Function.update_of_ne heq] at ho'
      have hne : ids o' ≠ ids o := by
        intro hids
        apply heq
        apply h.apart o' o hids
        intro hzero
        rw [(h.closed o').mpr hzero] at ho'
        cases ho'
      rw [t.put_of_ne _ hne]
      exact h.found o' r'' ho'
  apart := h.apart

/-- An entry that is given back. -/
theorem Owns.drop (h : Owns t ids owned) (o : Owner) :
    Owns (t.put (ids o) none) (Function.update ids o 0)
      (Function.update owned o none) where
  positive := h.positive
  fresh i hi := by
    have hbelow := h.below o
    have hi' : t.next ≤ i := hi
    rw [t.put_of_ne _ (by omega)]
    exact h.fresh i hi
  below o' := by
    by_cases heq : o' = o
    · rw [heq, Function.update_self]
      exact h.positive
    · rw [Function.update_of_ne heq]
      exact h.below o'
  closed o' := by
    by_cases heq : o' = o
    · rw [heq, Function.update_self, Function.update_self]
      simp
    · rw [Function.update_of_ne heq, Function.update_of_ne heq]
      exact h.closed o'
  found o' r' ho' := by
    by_cases heq : o' = o
    · rw [heq, Function.update_self] at ho'
      cases ho'
    · rw [Function.update_of_ne heq] at ho' ⊢
      have hne : ids o' ≠ ids o := by
        intro hids
        apply heq
        apply h.apart o' o hids
        intro hzero
        rw [(h.closed o').mpr hzero] at ho'
        cases ho'
      rw [t.put_of_ne _ hne]
      exact h.found o' r' ho'
  apart o₁ o₂ hids hne := by
    by_cases h₁ : o₁ = o
    · rw [h₁, Function.update_self] at hne
      exact absurd rfl hne
    · rw [Function.update_of_ne h₁] at hids hne
      by_cases h₂ : o₂ = o
      · rw [h₂, Function.update_self] at hids
        exact absurd hids hne
      · rw [Function.update_of_ne h₂] at hids
        exact h.apart o₁ o₂ hids hne

end Steps

end PrivacyComputing.HandleTable
