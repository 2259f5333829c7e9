import Mathlib.Tactic.Common

/-! Calls that work on a state and may leave by a failure, as `EStateM` has them: one
equation per primitive step, so that a method body is executed by rewriting, and rules for
pre- and postconditions. A contract has one postcondition for a call that returns and one
for a call that leaves by a failure, which keeps the state reached. -/
namespace PrivacyComputing.Calls

section Run
variable {ε σ α β : Type} {s s' : σ}

lemma bind_ok {m : EStateM ε σ α} {k : α → EStateM ε σ β} {a : α} (h : m s = .ok a s') :
    (m >>= k) s = k a s' := by
  change EStateM.bind m k s = _
  simp only [EStateM.bind, h]

lemma bind_error {m : EStateM ε σ α} {k : α → EStateM ε σ β} {e : ε} (h : m s = .error e s') :
    (m >>= k) s = .error e s' := by
  change EStateM.bind m k s = _
  simp only [EStateM.bind, h]

/-- A sequence that returns has returned from both its calls. -/
lemma exists_of_bind_ok {m : EStateM ε σ α} {k : α → EStateM ε σ β} {b : β}
    (h : (m >>= k) s = .ok b s') : ∃ a t, m s = .ok a t ∧ k a t = .ok b s' := by
  cases hm : m s with
  | ok a t =>
    rw [bind_ok hm] at h
    exact ⟨a, t, rfl, h⟩
  | error e t =>
    rw [bind_error hm] at h
    cases h

/-- What follows a call sees its result only. -/
lemma bind_same {m : EStateM ε σ α} {k : α → EStateM ε σ β} (h : m s = m s') :
    (m >>= k) s = (m >>= k) s' := by
  change EStateM.bind m k s = EStateM.bind m k s'
  simp only [EStateM.bind, h]

@[simp] lemma get_bind (k : σ → EStateM ε σ β) : (get >>= k) s = k s s := rfl

@[simp] lemma modify_bind (f : σ → σ) (k : PUnit → EStateM ε σ β) :
    (modify f >>= k) s = k ⟨⟩ (f s) := rfl

@[simp] lemma modify_apply (f : σ → σ) : (modify f : EStateM ε σ PUnit) s = .ok ⟨⟩ (f s) := rfl

@[simp] lemma pure_apply (a : α) : (pure a : EStateM ε σ α) s = .ok a s := rfl

end Run

variable {ε σ τ α β : Type} {P P' : σ → Prop} {Q Q' : α → σ → Prop} {E E' : ε → σ → Prop}
  {m : EStateM ε σ α}

def Contract (P : σ → Prop) (m : EStateM ε σ α) (Q : α → σ → Prop) (E : ε → σ → Prop) : Prop :=
  ∀ s, P s → match m s with
    | .ok a s' => Q a s'
    | .error e s' => E e s'

/-- A call that keeps `I` when it returns and leaves `J` behind when it fails. -/
def Guards (I J : σ → Prop) (m : EStateM ε σ α) : Prop :=
  Contract I m (fun _ => I) (fun _ => J)

theorem Contract.ok {s s' : σ} {a : α} (h : Contract P m Q E) (hs : P s) (hm : m s = .ok a s') :
    Q a s' := by
  have hpost := h s hs
  rwa [hm] at hpost

theorem Contract.error {s s' : σ} {e : ε} (h : Contract P m Q E) (hs : P s)
    (hm : m s = .error e s') : E e s' := by
  have hpost := h s hs
  rwa [hm] at hpost

theorem Contract.weaken (h : Contract P m Q E) (hP : ∀ s, P' s → P s)
    (hQ : ∀ a s, Q a s → Q' a s) (hE : ∀ e s, E e s → E' e s) : Contract P' m Q' E' := by
  intro s hs
  cases hm : m s with
  | ok a s' => exact hQ a s' (h.ok (hP s hs) hm)
  | error e s' => exact hE e s' (h.error (hP s hs) hm)

theorem Contract.and (h : Contract P m Q E) (h' : Contract P' m Q' E') :
    Contract (fun s => P s ∧ P' s) m (fun a s => Q a s ∧ Q' a s) (fun e s => E e s ∧ E' e s) := by
  intro s hs
  cases hm : m s with
  | ok a s' => exact ⟨h.ok hs.1 hm, h'.ok hs.2 hm⟩
  | error e s' => exact ⟨h.error hs.1 hm, h'.error hs.2 hm⟩

theorem Contract.of_pure {a : α} (h : ∀ s, P s → Q a s) :
    Contract P (pure a : EStateM ε σ α) Q E := h

theorem Contract.of_throw {e : ε} (h : ∀ s, P s → E e s) :
    Contract P (throw e : EStateM ε σ α) Q E := h

theorem Contract.of_modify {f : σ → σ} {Q : PUnit → σ → Prop} (h : ∀ s, P s → Q ⟨⟩ (f s)) :
    Contract P (modify f : EStateM ε σ PUnit) Q E := h

/-- A body that first reads the state may use whatever holds of the state it read. -/
theorem Contract.get_bind {k : σ → EStateM ε σ α}
    (h : ∀ s, P s → Contract (fun t => t = s) (k s) Q E) : Contract P (get >>= k) Q E :=
  fun s hs => h s hs s rfl

theorem Contract.bind {k : α → EStateM ε σ β} {R : β → σ → Prop} (h : Contract P m Q E)
    (hk : ∀ a, Contract (Q a) (k a) R E) : Contract P (m >>= k) R E := by
  intro s hs
  cases hm : m s with
  | ok a s' =>
    rw [bind_ok hm]
    exact hk a s' (h.ok hs hm)
  | error e s' =>
    rw [bind_error hm]
    exact h.error hs hm

section Guards
variable {I J : σ → Prop}

theorem Guards.bind {k : α → EStateM ε σ β} (h : Guards I J m) (hk : ∀ a, Guards I J (k a)) :
    Guards I J (m >>= k) :=
  Contract.bind h hk

theorem Guards.of_pure {a : α} : Guards I J (pure a : EStateM ε σ α) := fun _ hs => hs

theorem Guards.of_throw {e : ε} (h : ∀ s, I s → J s) : Guards I J (throw e : EStateM ε σ α) := h

theorem Guards.of_modify {f : σ → σ} (h : ∀ s, I s → I (f s)) :
    Guards I J (modify f : EStateM ε σ PUnit) := h

theorem Guards.get_bind {k : σ → EStateM ε σ α} (h : ∀ s, Guards I J (k s)) :
    Guards I J (get >>= k) :=
  fun s hs => h s s hs

theorem Guards.ends (h : Guards I J m) (hIJ : ∀ s, I s → J s) :
    Contract I m (fun _ => J) (fun _ => J) :=
  Contract.weaken h (fun _ hs => hs) (fun _ s hs => hIJ s hs) (fun _ _ hs => hs)

end Guards

/-- A call on a part of the state. -/
def zoom (part : σ → τ) (put : σ → τ → σ) (m : EStateM ε τ α) : EStateM ε σ α := fun s =>
  match m (part s) with
  | .ok a t => .ok a (put s t)
  | .error e t => .error e (put s t)

/-- A call on a part keeps what does not depend on the part. -/
theorem Contract.zoom {part : σ → τ} {put : σ → τ → σ} {P : τ → Prop} {m : EStateM ε τ α}
    {Q : α → τ → Prop} {E : ε → τ → Prop} {F : σ → Prop} (h : Contract P m Q E)
    (hpart : ∀ s t, part (put s t) = t) (hF : ∀ s t, F s → F (put s t)) :
    Contract (fun s => P (part s) ∧ F s) (zoom part put m)
      (fun a s => Q a (part s) ∧ F s) (fun e s => E e (part s) ∧ F s) := by
  intro s hs
  unfold Calls.zoom
  cases hm : m (part s) with
  | ok a t => exact ⟨(hpart s t).symm ▸ h.ok hs.1 hm, hF s t hs.2⟩
  | error e t => exact ⟨(hpart s t).symm ▸ h.error hs.1 hm, hF s t hs.2⟩

end PrivacyComputing.Calls
