import PrivacyComputing.HpdaEngine

/-! The loops of `engine::run` over functors of any kind: what a functor does is a parameter, and
it may work on a state of its own beside the cells. The engine of the built-in functors is an
instance. -/
namespace PrivacyComputing.Hpda.Loops

/-- The functors registered on an engine. `holdsValue` is what `done_value` sets. -/
structure Functors (ι α σ ε : Type*) where
  predecessors : ι → List ι
  process : ι → (ι → Cell α) → σ → Except ε (Bool × (ι → Cell α) × σ)
  holdsValue : ι → Bool

variable {ι α σ ε : Type*} [DecidableEq ι] (F : Functors ι α σ ε)

def visit (f : ι) (stack : List ι) (c : ι → Cell α) (o : σ) :
    Except ε (List ι × (ι → Cell α) × σ) :=
  if (F.predecessors f).isEmpty then
    match F.process f c o with
    | .error e => .error e
    | .ok (true, c', o') => .ok (stack, setStatus (setHasValue c' f (F.holdsValue f)) f .null, o')
    | .ok (false, c', o') => .ok (stack, setStatus c' f .ended, o')
  else .ok (f :: stack, setStatus c f .p, o)

def bfsStep (f : ι) (queue : List ι) (st : State ι α) (o : σ) : Except ε (State ι α × σ) :=
  match visit F f st.processing st.cells o with
  | .error e => .error e
  | .ok (stack, c, o') =>
    let (asked, c') := request (F.predecessors f) c
    let queue' := queue ++ asked
    .ok (⟨c', queue', stack, if queue' = [] then .pop else .bfs⟩, o')

def popStep (f : ι) (stack : List ι) (st : State ι α) (o : σ) : Except ε (State ι α × σ) :=
  match F.process f st.cells o with
  | .error e => .error e
  | .ok (true, c, o') =>
    .ok (⟨setStatus (setHasValue c f (F.holdsValue f)) f .null, st.toProcess, stack, .pop⟩, o')
  | .ok (false, c, o') =>
    match request (F.predecessors f) (resetDoneValue c f) with
    | ([], c') => .ok (⟨setStatus c' f .ended, st.toProcess, stack, .pop⟩, o')
    | (asked, c') => .ok (⟨c', st.toProcess ++ asked, f :: stack, .bfs⟩, o')

def step (outputs : List ι) (st : State ι α) (o : σ) : Except ε (State ι α × σ) :=
  match st.phase, st.toProcess, st.processing with
  | .finished, _, _ => .ok (st, o)
  | .bfs, [], _ => .ok ({ st with phase := .pop }, o)
  | .bfs, f :: queue, _ => bfsStep F f queue st o
  | .pop, _, f :: stack => popStep F f stack st o
  | .pop, _, [] => .ok (prepareStep outputs st, o)

def runSteps (outputs : List ι) : ℕ → State ι α → σ → Except ε (State ι α × σ)
  | 0, st, o => .ok (st, o)
  | n + 1, st, o =>
    match step F outputs st o with
    | .error e => .error e
    | .ok (st', o') => runSteps outputs n st' o'

section Steps
variable {F} {outputs : List ι} {st st' : State ι α} {o o' : σ}

lemma runSteps_succ (h : step F outputs st o = .ok (st', o')) (n : ℕ) :
    runSteps F outputs (n + 1) st o = runSteps F outputs n st' o' := by
  simp only [runSteps, h]

lemma runSteps_add (n m : ℕ) : runSteps F outputs (n + m) st o =
    match runSteps F outputs n st o with
    | .error e => .error e
    | .ok (st', o') => runSteps F outputs m st' o' := by
  induction n generalizing st o with
  | zero => simp [runSteps]
  | succ n ih =>
    rw [Nat.succ_add]
    cases hstep : step F outputs st o with
    | error e => simp only [runSteps, hstep]
    | ok next =>
      simp only [runSteps, hstep]
      exact ih

lemma runSteps_of_finished (h : st.phase = .finished) (n : ℕ) :
    runSteps F outputs n st o = .ok (st, o) := by
  induction n with
  | zero => rfl
  | succ n ih =>
    have hstep : step F outputs st o = .ok (st, o) := by
      simp only [step, h]
    simp only [runSteps, hstep, ih]

/-- A run that finishes passes through the unfinished states that it reaches. -/
lemma finish_after {n m : ℕ} {mid : State ι α} {o₁ : σ} (hmid : mid.phase ≠ .finished)
    (hn : runSteps F outputs n st o = .ok (mid, o₁))
    (hm : runSteps F outputs m st o = .ok (st', o')) (hfin : st'.phase = .finished) :
    ∃ k, m = n + k ∧ runSteps F outputs k mid o₁ = .ok (st', o') := by
  by_cases hle : n ≤ m
  · obtain ⟨k, rfl⟩ := Nat.exists_eq_add_of_le hle
    rw [runSteps_add, hn] at hm
    exact ⟨k, rfl, hm⟩
  · obtain ⟨k, rfl⟩ := Nat.exists_eq_add_of_le (Nat.le_of_not_le hle)
    rw [runSteps_add, hm] at hn
    dsimp only at hn
    rw [runSteps_of_finished hfin] at hn
    cases hn
    exact absurd hfin hmid

lemma finish_unique {n m : ℕ} {mid : State ι α} {o₁ : σ} (hmid : mid.phase = .finished)
    (hn : runSteps F outputs n st o = .ok (mid, o₁))
    (hm : runSteps F outputs m st o = .ok (st', o')) (hfin : st'.phase = .finished) :
    st' = mid ∧ o' = o₁ := by
  have hall : runSteps F outputs (n + m) st o = .ok (mid, o₁) := by
    rw [runSteps_add, hn]
    exact runSteps_of_finished hmid m
  rw [Nat.add_comm, runSteps_add, hm] at hall
  dsimp only at hall
  rw [runSteps_of_finished hfin] at hall
  cases hall
  exact ⟨rfl, rfl⟩

lemma not_finish_of_error {n m : ℕ} {e : ε} (hn : runSteps F outputs n st o = .error e)
    (hm : runSteps F outputs m st o = .ok (st', o')) : st'.phase ≠ .finished := by
  intro hfin
  have hall : runSteps F outputs (n + m) st o = .error e := by
    rw [runSteps_add, hn]
  rw [Nat.add_comm, runSteps_add, hm] at hall
  dsimp only at hall
  rw [runSteps_of_finished hfin] at hall
  cases hall

end Steps

/-- The built-in functors. -/
def ofGraph (G : ι → Functor ι α) : Functors ι α Unit Thrown where
  predecessors v := (G v).predecessors
  process v c _ :=
    match Hpda.process G c v with
    | .error e => .error e
    | .ok (b, c') => .ok (b, c', ())
  holdsValue v :=
    match G v with
    | .split _ _ => false
    | .memoryOutput _ => false
    | _ => true

section OfGraph
variable (G : ι → Functor ι α)

lemma doneValue_ofGraph (c : ι → Cell α) (v : ι) :
    setHasValue c v ((ofGraph G).holdsValue v) = doneValue G c v := by
  unfold doneValue ofGraph
  dsimp only
  cases G v with
  | rawData | filter | concat | split | splitStream | memoryOutput => rfl

/-- A result of the engine of the built-in functors. -/
def withUnit {β : Type*} : Except Thrown β → Except Thrown (β × Unit)
  | .error e => .error e
  | .ok b => .ok (b, ())

lemma bfsStep_ofGraph (f : ι) (queue : List ι) (st : State ι α) :
    bfsStep (ofGraph G) f queue st () = withUnit (Hpda.bfsStep G f queue st) := by
  unfold bfsStep Hpda.bfsStep visit Hpda.visit
  by_cases hextractor : (G f).predecessors.isEmpty = true
  · simp only [ofGraph, hextractor, if_true]
    cases hprocess : Hpda.process G st.cells f with
    | error e => rfl
    | ok result =>
      obtain ⟨b, c⟩ := result
      cases b with
      | false => rfl
      | true =>
        have hdone := doneValue_ofGraph G c f
        simp only [ofGraph] at hdone
        simp only [hdone]
        rfl
  · simp only [ofGraph, hextractor]
    rfl

lemma popStep_ofGraph (f : ι) (stack : List ι) (st : State ι α) :
    popStep (ofGraph G) f stack st () = withUnit (Hpda.popStep G f stack st) := by
  unfold popStep Hpda.popStep
  cases hprocess : Hpda.process G st.cells f with
  | error e => simp only [ofGraph, hprocess, withUnit]
  | ok result =>
    obtain ⟨b, c⟩ := result
    cases b with
    | true =>
      have hdone := doneValue_ofGraph G c f
      simp only [ofGraph] at hdone
      simp only [ofGraph, hprocess, hdone, withUnit]
    | false =>
      simp only [ofGraph, hprocess]
      cases hrequest : request (G f).predecessors (resetDoneValue c f) with
      | mk asked c' =>
        cases asked with
        | nil => rfl
        | cons a asked => rfl

/-- The engine of the built-in functors takes the same turns. -/
theorem step_ofGraph (outputs : List ι) (st : State ι α) :
    step (ofGraph G) outputs st () = withUnit (Hpda.step G outputs st) := by
  obtain ⟨c, queue, stack, phase⟩ := st
  cases phase with
  | finished => rfl
  | bfs =>
    cases queue with
    | nil => rfl
    | cons f queue => exact bfsStep_ofGraph G f queue _
  | pop =>
    cases stack with
    | nil => rfl
    | cons f stack => exact popStep_ofGraph G f stack _

theorem runSteps_ofGraph (outputs : List ι) (n : ℕ) (st : State ι α) :
    runSteps (ofGraph G) outputs n st () = withUnit (Hpda.runSteps G outputs n st) := by
  induction n generalizing st with
  | zero => rfl
  | succ n ih =>
    unfold runSteps Hpda.runSteps
    rw [step_ofGraph]
    cases Hpda.step G outputs st with
    | error e => rfl
    | ok st' => exact ih st'

end OfGraph
end PrivacyComputing.Hpda.Loops
