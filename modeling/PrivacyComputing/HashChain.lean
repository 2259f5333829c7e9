import Mathlib.Data.List.Basic
import Mathlib.Data.List.Induction
import Mathlib.Tactic.Common

/-! Hash chains over byte strings: a digest of fixed length is folded with the
next item. Two item lists with one chain value are equal, or two different
strings that were hashed on the way have the same digest. -/
namespace PrivacyComputing.HashChain

variable {α : Type*} (H : List α → List α) (seed : List α)

/-- Fold the items onto a digest that is already there. -/
def extend (d : List α) (xs : List (List α)) : List α :=
  xs.foldl (fun d x => H (d ++ x)) d

def chain (xs : List (List α)) : List α := extend H (H seed) xs

/-- The strings hashed while the items are folded onto `d`, in order. -/
def extendInputs (d : List α) : List (List α) → List (List α)
  | [] => []
  | x :: xs => (d ++ x) :: extendInputs (H (d ++ x)) xs

/-- All strings that computing the chain hashes: the seed, then one string per item. -/
def inputs (xs : List (List α)) : List (List α) := seed :: extendInputs H (H seed) xs

theorem extend_append (d : List α) (xs ys : List (List α)) :
    extend H d (xs ++ ys) = extend H (extend H d xs) ys := List.foldl_append

@[simp] theorem chain_nil : chain H seed [] = H seed := rfl

theorem chain_append (xs ys : List (List α)) :
    chain H seed (xs ++ ys) = extend H (chain H seed xs) ys := extend_append H _ xs ys

@[simp] theorem chain_snoc (xs : List (List α)) (x : List α) :
    chain H seed (xs ++ [x]) = H (chain H seed xs ++ x) := chain_append H seed xs [x]

theorem extendInputs_append (d : List α) (xs ys : List (List α)) :
    extendInputs H d (xs ++ ys) =
      extendInputs H d xs ++ extendInputs H (extend H d xs) ys := by
  induction xs generalizing d with
  | nil => rfl
  | cons x xs ih => simp [extendInputs, ih, extend]

theorem inputs_snoc (xs : List (List α)) (x : List α) :
    inputs H seed (xs ++ [x]) = inputs H seed xs ++ [chain H seed xs ++ x] := by
  simp [inputs, extendInputs_append, extendInputs, chain]

lemma last_mem_inputs (xs : List (List α)) (x : List α) :
    chain H seed xs ++ x ∈ inputs H seed (xs ++ [x]) := by
  simp [inputs_snoc]

lemma inputs_subset_snoc {xs : List (List α)} {a : List α} (x : List α)
    (h : a ∈ inputs H seed xs) : a ∈ inputs H seed (xs ++ [x]) := by
  rw [inputs_snoc]
  exact List.mem_append_left _ h

lemma seed_mem_inputs (xs : List (List α)) : seed ∈ inputs H seed xs := by
  simp [inputs]

/-- Two different strings, one hashed for each list, with equal digests. -/
def Collision (xs ys : List (List α)) : Prop :=
  ∃ a ∈ inputs H seed xs, ∃ b ∈ inputs H seed ys, a ≠ b ∧ H a = H b

variable {H seed} {n : ℕ}

lemma chain_length (hn : ∀ m, (H m).length = n) (xs : List (List α)) :
    (chain H seed xs).length = n := by
  induction xs using List.reverseRecOn with
  | nil => exact hn seed
  | append_singleton xs x _ => rw [chain_snoc]; exact hn _

lemma seed_ne_input (hn : ∀ m, (H m).length = n) (hs : seed.length < n)
    (xs : List (List α)) (x : List α) : seed ≠ chain H seed xs ++ x := by
  intro h
  have hl := congrArg List.length h
  rw [List.length_append, chain_length hn xs] at hl
  omega

/-- A chain over a seed shorter than a digest determines its item list up to an
exhibited collision. -/
theorem chain_eq_or_collision (hn : ∀ m, (H m).length = n) (hs : seed.length < n)
    {xs ys : List (List α)} (h : chain H seed xs = chain H seed ys) :
    xs = ys ∨ Collision H seed xs ys := by
  induction xs using List.reverseRecOn generalizing ys with
  | nil =>
    cases ys using List.reverseRecOn with
    | nil => exact Or.inl rfl
    | append_singleton ys y =>
      right
      rw [chain_nil, chain_snoc] at h
      exact ⟨seed, seed_mem_inputs H seed [], _, last_mem_inputs H seed ys y,
        seed_ne_input hn hs ys y, h⟩
  | append_singleton xs x ih =>
    cases ys using List.reverseRecOn with
    | nil =>
      right
      rw [chain_nil, chain_snoc] at h
      exact ⟨_, last_mem_inputs H seed xs x, seed, seed_mem_inputs H seed [],
        (seed_ne_input hn hs xs x).symm, h⟩
    | append_singleton ys y =>
      rw [chain_snoc, chain_snoc] at h
      by_cases he : chain H seed xs ++ x = chain H seed ys ++ y
      · have hl : (chain H seed xs).length = (chain H seed ys).length := by
          rw [chain_length hn, chain_length hn]
        obtain ⟨hc, rfl⟩ := List.append_inj he hl
        rcases ih hc with rfl | ⟨a, ha, b, hb, hne, hab⟩
        · exact Or.inl rfl
        · exact Or.inr ⟨a, inputs_subset_snoc H seed x ha, b,
            inputs_subset_snoc H seed x hb, hne, hab⟩
      · exact Or.inr ⟨_, last_mem_inputs H seed xs x, _, last_mem_inputs H seed ys y, he, h⟩

end PrivacyComputing.HashChain
