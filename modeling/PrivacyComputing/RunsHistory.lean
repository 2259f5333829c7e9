import Mathlib.Data.List.Basic
import Mathlib.Tactic.Common

/-! Finite runs of a deterministic step function, with a condition that every
step may be required to meet, histories in which each event has to be
justified by the events before it, and runs of operations that each write to
some locations. -/
namespace PrivacyComputing.Runs

variable {σ ι ε ο : Type*}

/-- The state reached from `s` by taking the inputs in order. -/
def run (step : σ → ι → σ) (s : σ) (is : List ι) : σ := is.foldl step s

/-- Every input is taken in a state in which `C` allows it. -/
def Along (step : σ → ι → σ) (C : σ → ι → Prop) : σ → List ι → Prop
  | _, [] => True
  | s, i :: is => C s i ∧ Along step C (step s i) is

instance Along.decidable (step : σ → ι → σ) (C : σ → ι → Prop) [∀ s i, Decidable (C s i)] :
    ∀ (s : σ) (is : List ι), Decidable (Along step C s is)
  | _, [] => .isTrue trivial
  | s, i :: is => @instDecidableAnd _ _ _ (Along.decidable step C (step s i) is)

@[simp] theorem run_nil (step : σ → ι → σ) (s : σ) : run step s [] = s := rfl

@[simp] theorem run_cons (step : σ → ι → σ) (s : σ) (i : ι) (is : List ι) :
    run step s (i :: is) = run step (step s i) is := rfl

theorem run_append (step : σ → ι → σ) (s : σ) (is js : List ι) :
    run step s (is ++ js) = run step (run step s is) js := List.foldl_append

theorem Along.and {step : σ → ι → σ} {C D : σ → ι → Prop} {s : σ} {is : List ι}
    (hC : Along step C s is) (hD : Along step D s is) :
    Along step (fun s i => C s i ∧ D s i) s is := by
  induction is generalizing s with
  | nil => trivial
  | cons i is ih => exact ⟨⟨hC.1, hD.1⟩, ih hC.2 hD.2⟩

theorem along_append {step : σ → ι → σ} {C : σ → ι → Prop} {s : σ} {is js : List ι} :
    Along step C s (is ++ js) ↔ Along step C s is ∧ Along step C (run step s is) js := by
  induction is generalizing s with
  | nil => simp [Along]
  | cons i is ih => simp [Along, ih, and_assoc]

/-- Two machines in step, with conditions that agree on related states, are permitted the same
runs. -/
theorem along_iff_of_simulation {τ : Type*} {step : σ → ι → σ} {step' : τ → ι → τ}
    {C : σ → ι → Prop} {D : τ → ι → Prop} {R : σ → τ → Prop}
    (hstep : ∀ s t i, R s t → R (step s i) (step' t i)) (hiff : ∀ s t i, R s t → (C s i ↔ D t i))
    {s : σ} {t : τ} (h : R s t) (is : List ι) : Along step C s is ↔ Along step' D t is := by
  induction is generalizing s t with
  | nil => exact Iff.rfl
  | cons i is ih => exact and_congr (hiff s t i h) (ih (hstep s t i h))

/-- A property that every permitted step keeps holds at the end of a permitted run. -/
theorem run_invariant {step : σ → ι → σ} {C : σ → ι → Prop} {Inv : σ → Prop}
    (hstep : ∀ s i, Inv s → C s i → Inv (step s i)) {s : σ} {is : List ι}
    (hs : Inv s) (hC : Along step C s is) : Inv (run step s is) := by
  induction is generalizing s with
  | nil => exact hs
  | cons i is ih => exact ih (hstep s i hs hC.1) hC.2

/-- A property that every step keeps holds at the end of every run. -/
theorem run_always {step : σ → ι → σ} {Inv : σ → Prop}
    (hstep : ∀ s i, Inv s → Inv (step s i)) {s : σ} (is : List ι)
    (hs : Inv s) : Inv (run step s is) := by
  induction is generalizing s with
  | nil => exact hs
  | cons i is ih => exact ih (hstep s i hs)

/-- What a machine with outputs answers to the inputs, in order. -/
def outputs (step : σ → ι → ο × σ) : σ → List ι → List ο
  | _, [] => []
  | s, i :: is => (step s i).1 :: outputs step (step s i).2 is

/-- Histories are kept newest first: each event meets `J` against the older ones. -/
def Justified (J : List ε → ε → Prop) : List ε → Prop
  | [] => True
  | e :: older => J older e ∧ Justified J older

theorem Justified.older {J : List ε → ε → Prop} {newer older : List ε}
    (h : Justified J (newer ++ older)) : Justified J older := by
  induction newer with
  | nil => exact h
  | cons e newer ih => exact ih h.2

/-- The law holds at every event of a justified history. -/
theorem Justified.at_event {J : List ε → ε → Prop} {newer older : List ε} {e : ε}
    (h : Justified J (newer ++ e :: older)) : J older e :=
  (Justified.older h).1

theorem Justified.of_mem {J : List ε → ε → Prop} {history : List ε} {e : ε}
    (h : Justified J history) (he : e ∈ history) : ∃ older, J older e := by
  obtain ⟨newer, older, rfl⟩ := List.append_of_mem he
  exact ⟨older, h.at_event⟩

/-- If the keys of the events that have one are all different, a key determines its event. -/
theorem eq_of_nodup_filterMap {κ : Type*} {key : ε → Option κ} {history : List ε} {e e' : ε} {k : κ}
    (h : (history.filterMap key).Nodup) (he : e ∈ history) (he' : e' ∈ history)
    (hk : key e = some k) (hk' : key e' = some k) : e = e' := by
  induction history with
  | nil => cases he
  | cons a history ih =>
    rw [List.filterMap_cons] at h
    have hnot (ha : key a = some k) (b : ε) (hb : b ∈ history) : key b ≠ some k := by
      intro hbk
      rw [ha] at h
      exact (List.nodup_cons.mp h).1 (List.mem_filterMap.mpr ⟨b, hb, hbk⟩)
    have htail : (history.filterMap key).Nodup := by
      cases ha : key a with
      | none => simpa [ha] using h
      | some x =>
        rw [ha] at h
        exact (List.nodup_cons.mp h).2
    obtain heq | he := List.mem_cons.mp he
    · obtain heq' | he' := List.mem_cons.mp he'
      · rw [heq, heq']
      · exact absurd hk' (hnot (heq ▸ hk) e' he')
    · obtain heq' | he' := List.mem_cons.mp he'
      · exact absurd hk (hnot (heq' ▸ hk') e he)
      · exact ih htail he he'

end PrivacyComputing.Runs

namespace PrivacyComputing.LastWrite

variable {Op Loc Val : Type*}

/-- The state after one operation, whose effect does not depend on the state before. -/
def apply (effect : Op → Loc → Option Val) (s : Loc → Val) (op : Op) : Loc → Val :=
  fun k => (effect op k).getD (s k)

/-- What the last operation on a location wrote there. -/
def last (effect : Op → Loc → Option Val) (ops : List Op) (k : Loc) : Option Val :=
  ops.reverse.findSome? fun op => effect op k

variable {effect : Op → Loc → Option Val}

theorem last_cons (op : Op) (ops : List Op) (k : Loc) :
    last effect (op :: ops) k = (last effect ops k).or (effect op k) := by
  rw [last, List.reverse_cons, List.findSome?_append]
  cases heffect : effect op k <;> simp [last, heffect]

theorem foldl_apply (ops : List Op) (s : Loc → Val) (k : Loc) :
    ops.foldl (apply effect) s k = (last effect ops k).getD (s k) := by
  induction ops generalizing s with
  | nil => rfl
  | cons op ops ih =>
    rw [List.foldl_cons, ih, last_cons]
    cases last effect ops k with
    | none => rfl
    | some v => rfl

/-- What was written was written by an operation of the run. -/
theorem exists_of_last {ops : List Op} {k : Loc} {v : Val} (h : last effect ops k = some v) :
    ∃ op ∈ ops, effect op k = some v := by
  obtain ⟨op, hmem, hop⟩ := List.exists_of_findSome?_eq_some h
  exact ⟨op, List.mem_reverse.mp hmem, hop⟩

end PrivacyComputing.LastWrite
