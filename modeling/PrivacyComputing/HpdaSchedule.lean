import PrivacyComputing.HpdaTransform

/-! The queue and the stack of `engine::run`. Every functor on them was asked for by a consumer
further down the stack; a functor that has a value on the stack has a consumer above it. -/
namespace PrivacyComputing.Hpda

variable {ι α : Type*}

section Stack
variable [DecidableEq ι] {G : ι → Functor ι α} {stack : List ι} {v w f : ι}

/-- The entries of the stack above the topmost entry of `v`. -/
def above (v : ι) (stack : List ι) : List ι := stack.takeWhile (· ≠ v)

@[simp] lemma above_nil (v : ι) : above v [] = [] := rfl

@[simp] lemma above_self (v : ι) (stack : List ι) : above v (v :: stack) = [] := by
  simp [above]

lemma above_cons (h : w ≠ v) : above v (w :: stack) = w :: above v stack := by
  simp [above, h]

lemma above_split (h : v ∈ stack) : ∃ post, stack = above v stack ++ v :: post := by
  induction stack with
  | nil => simp at h
  | cons w stack ih =>
    by_cases hw : w = v
    · subst hw
      exact ⟨stack, by simp⟩
    · have hmem : v ∈ stack := by
        rcases List.mem_cons.mp h with he | hm
        · exact absurd he.symm hw
        · exact hm
      obtain ⟨post, hpost⟩ := ih hmem
      refine ⟨post, ?_⟩
      rw [above_cons hw, List.cons_append, ← hpost]

/-- A consumer of `v` stands above the topmost entry of `v`. -/
def Asked (G : ι → Functor ι α) (v : ι) (stack : List ι) : Prop :=
  ∃ f ∈ above v stack, v ∈ (G f).predecessors

lemma Asked.cons (h : Asked G v stack) (hw : w ≠ v) : Asked G v (w :: stack) := by
  obtain ⟨f, hf, hv⟩ := h
  refine ⟨f, ?_, hv⟩
  rw [above_cons hw]
  exact List.mem_cons_of_mem w hf

lemma Asked.top (h : v ∈ (G f).predecessors) (hne : f ≠ v) : Asked G v (f :: stack) := by
  refine ⟨f, ?_, h⟩
  rw [above_cons hne]
  exact List.mem_cons_self

lemma not_asked_self : ¬Asked G v (v :: stack) := by
  simp [Asked]

lemma Asked.of_cons (h : Asked G v (w :: stack)) (hw : v ∉ (G w).predecessors) :
    Asked G v stack := by
  obtain ⟨f, hf, hv⟩ := h
  by_cases he : w = v
  · rw [he, above_self] at hf
    exact absurd hf (by simp)
  · rw [above_cons he] at hf
    rcases List.mem_cons.mp hf with hfw | hmem
    · exact absurd (hfw ▸ hv) hw
    · exact ⟨f, hmem, hv⟩

lemma Asked.mem (h : Asked G v stack) : ∃ f ∈ stack, v ∈ (G f).predecessors := by
  obtain ⟨f, hf, hv⟩ := h
  exact ⟨f, (List.takeWhile_sublist _).subset hf, hv⟩

/-- Every entry of the stack was asked for by an entry below it. -/
def Linked (G : ι → Functor ι α) : List ι → Prop
  | [] => True
  | v :: stack => (¬IsOutput G v → Asked G v stack) ∧ Linked G stack

lemma Linked.asked_of_append {pre : List ι} (h : Linked G (pre ++ v :: stack))
    (hv : ¬IsOutput G v) : Asked G v stack := by
  induction pre with
  | nil => exact h.1 hv
  | cons w pre ih => exact ih h.2

lemma Linked.asked_of_mem (h : Linked G stack) (hmem : v ∈ stack) (hv : ¬IsOutput G v) :
    ∃ f ∈ stack, v ∈ (G f).predecessors := by
  obtain ⟨post, hpost⟩ := above_split hmem
  rw [hpost] at h
  obtain ⟨f, hf, hfv⟩ := (h.asked_of_append hv).mem
  refine ⟨f, ?_, hfv⟩
  rw [hpost]
  exact List.mem_append_right _ (List.mem_cons_of_mem v hf)

end Stack

section Request
variable [DecidableEq ι]

/-- The functors that `engine::run` asks for a value. -/
def Wanted (c : ι → Cell α) (v : ι) : Prop :=
  (c v).mHasValue = false ∧ (c v).mStatus ≠ .toP ∧ (c v).mStatus ≠ .ended

instance (c : ι → Cell α) : DecidablePred (Wanted c) :=
  fun _ => inferInstanceAs (Decidable (_ ∧ _ ∧ _))

def askAll (c : ι → Cell α) (asked : List ι) : ι → Cell α :=
  fun v => if v ∈ asked then { c v with mStatus := .toP } else c v

lemma askAll_nil (c : ι → Cell α) : askAll c [] = c := by
  funext v
  simp [askAll]

@[simp] lemma askAll_mHasValue (c : ι → Cell α) (asked : List ι) (v : ι) :
    (askAll c asked v).mHasValue = (c v).mHasValue := by
  unfold askAll
  split_ifs <;> rfl

lemma askAll_mStatus (c : ι → Cell α) (asked : List ι) (v : ι) :
    (askAll c asked v).mStatus = if v ∈ asked then .toP else (c v).mStatus := by
  unfold askAll
  split_ifs <;> rfl

@[simp] lemma askAll_pending (c : ι → Cell α) (asked : List ι) (v : ι) :
    (askAll c asked v).pending = (c v).pending := by
  unfold askAll
  split_ifs <;> rfl

@[simp] lemma setStatus_pending (c : ι → Cell α) (v w : ι) (status : Status) :
    (setStatus c v status w).pending = (c w).pending := by
  unfold setStatus modify
  split_ifs <;> rfl

lemma askAll_cons (c : ι → Cell α) (w : ι) (asked : List ι) :
    askAll (setStatus c w .toP) asked = askAll c (w :: asked) := by
  funext v
  by_cases hv : v = w
  · subst hv
    simp [askAll, setStatus]
  · simp [askAll, setStatus, modify_ne _ _ hv, hv]

theorem request_eq (inputs : List ι) (h : inputs.Nodup) (c : ι → Cell α) :
    request inputs c = (inputs.filter (Wanted c), askAll c (inputs.filter (Wanted c))) := by
  induction inputs generalizing c with
  | nil => simp [request, askAll_nil]
  | cons input inputs ih =>
    obtain ⟨hnot, hnodup⟩ := List.nodup_cons.mp h
    unfold request
    split_ifs with hw
    · have hsame : inputs.filter (Wanted (setStatus c input .toP)) =
          inputs.filter (Wanted c) := by
        apply List.filter_congr
        intro v hv
        have hne : v ≠ input := fun he => hnot (he ▸ hv)
        rw [decide_eq_decide, Wanted, Wanted, setStatus, modify_ne _ _ hne]
      rw [List.filter_cons_of_pos (by rw [decide_eq_true_eq]; exact hw), ih hnodup, hsame,
        askAll_cons]
    · rw [List.filter_cons_of_neg (by rw [decide_eq_true_eq]; exact hw), ih hnodup]

/-- The outputs that are asked again. -/
def Open (c : ι → Cell α) (v : ι) : Prop := (c v).mStatus ≠ .ended ∧ (c v).mStatus ≠ .toP

instance (c : ι → Cell α) : DecidablePred (Open c) :=
  fun _ => inferInstanceAs (Decidable (_ ∧ _))

theorem requestOutputs_eq (outputs : List ι) (h : outputs.Nodup) (c : ι → Cell α) :
    requestOutputs outputs c = (outputs.filter (Open c), askAll c (outputs.filter (Open c))) := by
  induction outputs generalizing c with
  | nil => simp [requestOutputs, askAll_nil]
  | cons output outputs ih =>
    obtain ⟨hnot, hnodup⟩ := List.nodup_cons.mp h
    unfold requestOutputs
    split_ifs with hw
    · have hsame : outputs.filter (Open (setStatus c output .toP)) = outputs.filter (Open c) := by
        apply List.filter_congr
        intro v hv
        have hne : v ≠ output := fun he => hnot (he ▸ hv)
        rw [decide_eq_decide, Open, Open, setStatus, modify_ne _ _ hne]
      rw [List.filter_cons_of_pos (by rw [decide_eq_true_eq]; exact hw), ih hnodup, hsame,
        askAll_cons]
    · rw [List.filter_cons_of_neg (by rw [decide_eq_true_eq]; exact hw), ih hnodup]

end Request

section Moves
variable [DecidableEq ι]

/-- The turns of the loops of `engine::run`, as the cells, the queue and the stack see them, with
the records that are left and what the functors that store records receive in all. -/
inductive Move [Fintype ι] (G : ι → Functor ι α) (K : ι → Prop) (outputs : List ι) :
    State ι α → (ι → List α) → (ι → List α) → State ι α → (ι → List α) → (ι → List α) → Prop
  | extract {c c' total total' rest rest' f queue stack ok phase}
      (hnil : (G f).predecessors = []) (hfired : Fired G K total' f ok c c' rest rest')
      (hphase : phase = if queue = [] then .pop else .bfs) :
      Move G K outputs ⟨c, f :: queue, stack, .bfs⟩ total rest
        ⟨setStatus c' f (if ok then .null else .ended), queue, stack, phase⟩ total' rest'
  | push {c total rest f queue stack phase asked} (hne : (G f).predecessors ≠ [])
      (hasked : asked = (G f).predecessors.filter (Wanted c))
      (hphase : phase = if queue ++ asked = [] then .pop else .bfs) :
      Move G K outputs ⟨c, f :: queue, stack, .bfs⟩ total rest
        ⟨askAll (setStatus c f .p) asked, queue ++ asked, f :: stack, phase⟩ total rest
  | accept {c c' total total' rest rest' f queue stack}
      (hfired : Fired G K total' f true c c' rest rest') :
      Move G K outputs ⟨c, queue, f :: stack, .pop⟩ total rest
        ⟨setStatus c' f .null, queue, stack, .pop⟩ total' rest'
  | ask {c c' total total' rest rest' f queue stack asked}
      (hfired : Fired G K total' f false c c' rest rest')
      (hasked : asked = (G f).predecessors.filter (Wanted c')) (hne : asked ≠ []) :
      Move G K outputs ⟨c, queue, f :: stack, .pop⟩ total rest
        ⟨askAll c' asked, queue ++ asked, f :: stack, .bfs⟩ total' rest'
  | finish {c c' total total' rest rest' f queue stack}
      (hfired : Fired G K total' f false c c' rest rest')
      (hnone : ∀ w ∈ (G f).predecessors, ¬Wanted c' w) :
      Move G K outputs ⟨c, queue, f :: stack, .pop⟩ total rest
        ⟨setStatus c' f .ended, queue, stack, .pop⟩ total' rest'
  | prepare {c total rest queue phase asked} (hasked : asked = outputs.filter (Open c))
      (hphase : phase = if asked = [] then .finished else .bfs) :
      Move G K outputs ⟨c, queue, [], .pop⟩ total rest ⟨askAll c asked, asked, [], phase⟩ total
        rest

/-- A concat skips the inputs without a value and a stream does not go back, so they wait for
their inputs. -/
def Careful (G : ι → Functor ι α) (v : ι) : Prop :=
  (∃ u added, G v = .concat u added) ∨ (∃ s, G v = .splitStream s) ∨
    ∃ r s, G r = .splitStream s ∧ r ∈ (G v).predecessors

/-- Conditions on the stack and the queue under which the careful functors of `K` stand on them
once at most. The streams are in `K`, with a functor everything further down, and with a concat or
a stream its inputs. -/
structure Discipline (G : ι → Functor ι α) (outputs : List ι) (K : ι → Prop)
    (D : List ι → List ι → Prop) : Prop where
  consumer : ∀ {c f}, K c → c ∈ (G f).predecessors → K f
  stream : ∀ {r s}, G r = .splitStream s → K r
  inputs : ∀ {f w}, K f → (∃ u added, G f = .concat u added) ∨ (∃ s, G f = .splitStream s) →
    w ∈ (G f).predecessors → K w
  restart : ∀ {asked}, asked.Sublist outputs → D [] asked
  careful : ∀ {stack queue v}, D stack queue → K v → Careful G v →
    (stack ++ queue).count v ≤ 1
  shift : ∀ {f stack queue}, D stack (f :: queue) → D (f :: stack) queue
  leave : ∀ {f stack queue}, D stack (f :: queue) → D stack queue
  pop : ∀ {f stack queue}, D (f :: stack) queue → D stack queue
  ask : ∀ {f stack queue asked}, D (f :: stack) queue → Linked G (f :: stack) →
    (∀ v ∈ queue, ¬IsOutput G v → Asked G v stack) → asked.Sublist (G f).predecessors →
    (∀ w ∈ asked, w ∉ queue) → D (f :: stack) (queue ++ asked)

/-- What a waiting functor `f` finds at its input `w`. -/
def Served (G : ι → Functor ι α) (c : ι → Cell α) (f w : ι) : Prop :=
  (c w).mStatus = .ended ∨ ((∃ u added, G f = .concat u added) ∧ (c w).mHasValue = true) ∨
    ((∃ s, G f = .splitStream s) ∧ (c f).pending ≠ [])

/-- The invariant of `engine::run`. -/
structure Inv (G : ι → Functor ι α) (total : ι → List α) (K : ι → Prop)
    (D : List ι → List ι → Prop) (st : State ι α) (rest : ι → List α) : Prop where
  flow : Flow G K total st.cells rest
  ended : ∀ v, (st.cells v).mStatus = .ended →
    rest v = [] ∧ (K v → ∀ w ∈ (G v).predecessors, (st.cells w).mStatus = .ended)
  queue_nodup : st.toProcess.Nodup
  queue_status : ∀ v, v ∈ st.toProcess ↔ (st.cells v).mStatus = .toP
  queue_empty : ∀ v ∈ st.toProcess, (st.cells v).mHasValue = false
  queue_asked : ∀ v ∈ st.toProcess, ¬IsOutput G v → Asked G v st.processing
  stacked : ∀ v ∈ st.processing, (G v).predecessors ≠ []
  linked : Linked G st.processing
  held : ∀ v, K v → (st.cells v).mHasValue = true → v ∈ st.processing → Asked G v st.processing
  cover : ∀ f ∈ st.processing, K f →
    (∃ u added, G f = .concat u added) ∨ (∃ s, G f = .splitStream s) → ∀ w ∈ (G f).predecessors,
      Served G st.cells f w ∨ w ∈ above f st.processing ∨ w ∈ st.toProcess
  discipline : D st.processing st.toProcess
  popping : st.phase = .pop → st.toProcess = []
  searching : st.phase = .bfs → st.toProcess ≠ []
  finished : st.phase = .finished → ∀ v, IsOutput G v → (st.cells v).mStatus = .ended

/-- The call of a functor outside `K` that is popped keeps the equations, for totals in `T`. -/
def Safe [Fintype ι] (G : ι → Functor ι α) (K : ι → Prop) (T : (ι → List α) → Prop)
    (st : State ι α) (rest : ι → List α) : Prop :=
  ∀ f stack, st.phase = .pop → st.processing = f :: stack → ¬K f →
    ∃ ok c₁ total rest', process G st.cells f = .ok (ok, c₁) ∧ T total ∧
      Fired G K total f ok st.cells (settle G ok c₁ f) rest rest'

variable {G : ι → Functor ι α} {rank : ι → ℕ} {total : ι → List α} {outputs : List ι}
  {K : ι → Prop} {D : List ι → List ι → Prop} {T : (ι → List α) → Prop} {st st' : State ι α}
  {c c' : ι → Cell α} {rest rest' : ι → List α} {stack queue : List ι} {f v w : ι} {phase : Phase}

lemma safe_of_forall [Fintype ι] (h : ∀ v, K v) : Safe G K T st rest :=
  fun f _ _ _ hf => absurd (h f) hf

lemma Inv.top_empty (I : Inv G total K D ⟨c, queue, f :: stack, phase⟩ rest) (hf : K f) :
    (c f).mHasValue = false := by
  by_contra h
  exact not_asked_self (I.held f hf (by simpa using h) List.mem_cons_self)

/-- While the stack is popped nothing is in the queue. -/
lemma Inv.none_asked (I : Inv G total K D ⟨c, queue, stack, .pop⟩ rest) (v : ι) :
    (c v).mStatus ≠ .toP := by
  intro hv
  have hmem := (I.queue_status v).mpr hv
  have hqueue := I.popping rfl
  simp only at hmem hqueue
  simp [hqueue] at hmem

lemma Inv.top_served (I : Inv G total K D ⟨c, queue, f :: stack, .pop⟩ rest) (hK : K f)
    (hf : (∃ u added, G f = .concat u added) ∨ ∃ s, G f = .splitStream s)
    (hw : w ∈ (G f).predecessors) : Served G c f w := by
  rcases I.cover f List.mem_cons_self hK hf w hw with h | h | h
  · exact h
  · simp at h
  · have hq := I.popping rfl
    simp only at hq h
    simp [hq] at h

/-- A functor of `K` on top of the stack is empty and moves past used up inputs only. -/
lemma Inv.top_ready (I : Inv G total K D ⟨c, queue, f :: stack, .pop⟩ rest) (hf : K f) :
    (c f).mHasValue = false ∧ ∀ w ∈ passed G c f, rest w = [] := by
  refine ⟨I.top_empty hf, fun w hw => ?_⟩
  obtain ⟨hwf, hempty, u, added, hG⟩ := mem_passed hw
  rcases I.top_served hf (Or.inl ⟨u, added, hG⟩) hwf with h | h | h
  · exact (I.ended w h).1
  · rw [hempty] at h
    exact absurd h.2 (by simp)
  · obtain ⟨⟨s, hs⟩, -⟩ := h
    rw [hG] at hs
    exact absurd hs (by simp)

lemma Inv.top_fires [Fintype ι] (N : Network G rank) (hD : Discipline G outputs K D)
    (I : Inv G total K D ⟨c, queue, f :: stack, .pop⟩ rest)
    (hT : T total) (hsafe : Safe G K T ⟨c, queue, f :: stack, .pop⟩ rest) :
    ∃ ok c₁ total' rest', process G c f = .ok (ok, c₁) ∧ T total' ∧
      Fired G K total' f ok c (settle G ok c₁ f) rest rest' := by
  by_cases hf : K f
  · obtain ⟨hempty, hpassed⟩ := I.top_ready hf
    have hstream : ∀ s, G f = .splitStream s → (c f).pending ≠ [] ∨ rest s = [] := by
      intro s hG
      have hs : s ∈ (G f).predecessors := by simp [hG, Functor.predecessors]
      rcases I.top_served (hD.stream hG) (Or.inr ⟨s, hG⟩) hs with h | h | h
      · exact Or.inr (I.ended s h).1
      · obtain ⟨⟨u, added, hc⟩, -⟩ := h
        rw [hG] at hc
        exact absurd hc (by simp)
      · exact Or.inl h.2
    obtain ⟨ok, c₁, rest', hprocess, hfired⟩ := process_fired N I.flow hempty hpassed hstream
    exact ⟨ok, c₁, total, rest', hprocess, hT, hfired⟩
  · exact hsafe f stack rfl rfl hf

lemma Inv.source_fires [Fintype ι] (I : Inv G total K D ⟨c, f :: queue, stack, .bfs⟩ rest)
    (N : Network G rank) (hnil : (G f).predecessors = []) :
    ∃ ok c₁, process G c f = .ok (ok, c₁) ∧ Fired G K total f ok c (settle G ok c₁ f) rest rest ∧
      (ok = false → settle G ok c₁ f = c₁) := by
  have hempty : (c f).mHasValue = false := I.queue_empty f List.mem_cons_self
  have hs : (G f).IsSource := by
    cases hG : G f <;> simp [hG, Functor.predecessors, Functor.IsSource] at hnil ⊢
  refine ⟨_, _, process_source hs, fired_source N I.flow hs hempty ?_, ?_⟩
  · intro s hG
    simp [hG, Functor.predecessors] at hnil
  · intro hok
    simp only [settle, hok, Bool.false_eq_true, if_false]
    exact resetDoneValue_eq_self (by simp [hempty])

theorem bfsStep_move [Fintype ι] (N : Network G rank)
    (I : Inv G total K D ⟨c, f :: queue, stack, .bfs⟩ rest) :
    ∃ st' rest', bfsStep G f queue ⟨c, f :: queue, stack, .bfs⟩ = .ok st' ∧
      Move G K outputs ⟨c, f :: queue, stack, .bfs⟩ total rest st' total rest' := by
  by_cases hnil : (G f).predecessors = []
  · obtain ⟨ok, c₁, hprocess, hfired, hfalse⟩ := I.source_fires N hnil
    refine ⟨_, rest, ?_, Move.extract hnil hfired rfl⟩
    cases ok with
    | true => simp [bfsStep, visit, hnil, hprocess, request, settle]
    | false => simp [bfsStep, visit, hnil, hprocess, request, hfalse]
  · have hwanted : (G f).predecessors.filter (Wanted (setStatus c f .p)) =
        (G f).predecessors.filter (Wanted c) := by
      apply List.filter_congr
      intro w hw
      rw [decide_eq_decide, Wanted, Wanted, setStatus, modify_ne _ _ (N.ne hw)]
    have hrequest := request_eq _ (N.nodup f) (setStatus c f .p)
    rw [hwanted] at hrequest
    refine ⟨_, rest, ?_, Move.push hnil rfl rfl⟩
    simp only [bfsStep, visit, List.isEmpty_iff, hnil, if_false, hrequest]

theorem popStep_move [Fintype ι] (N : Network G rank)
    (hfires : ∃ ok c₁ total' rest', process G c f = .ok (ok, c₁) ∧ T total' ∧
      Fired G K total' f ok c (settle G ok c₁ f) rest rest') :
    ∃ st' total' rest', popStep G f stack ⟨c, queue, f :: stack, .pop⟩ = .ok st' ∧ T total' ∧
      Move G K outputs ⟨c, queue, f :: stack, .pop⟩ total rest st' total' rest' := by
  obtain ⟨ok, c₁, total', rest', hprocess, hT', hfired⟩ := hfires
  cases ok with
  | true =>
    refine ⟨_, total', rest', ?_, hT', Move.accept hfired⟩
    simp [popStep, hprocess, settle]
  | false =>
    have hsettle : settle G false c₁ f = resetDoneValue c₁ f := by simp [settle]
    have hrequest := request_eq _ (N.nodup f) (resetDoneValue c₁ f)
    rw [hsettle] at hfired
    cases hasked : (G f).predecessors.filter (Wanted (resetDoneValue c₁ f)) with
    | nil =>
      rw [hasked, askAll_nil] at hrequest
      refine ⟨_, total', rest', ?_, hT', Move.finish hfired ?_⟩
      · simp [popStep, hprocess, hrequest]
      · intro w hw
        simpa using (List.filter_eq_nil_iff.mp hasked) w hw
    | cons w asked =>
      rw [hasked] at hrequest
      refine ⟨_, total', rest', ?_, hT', Move.ask hfired hasked.symm (by simp)⟩
      simp [popStep, hprocess, hrequest]

theorem prepareStep_move [Fintype ι] (hO : FindOutputs G outputs) :
    Move G K outputs ⟨c, queue, [], .pop⟩ total rest (prepareStep outputs ⟨c, queue, [], .pop⟩)
      total rest := by
  have hrequest := requestOutputs_eq outputs hO.1 c
  unfold prepareStep
  simp only [hrequest]
  cases hasked : outputs.filter (Open c) with
  | nil => exact Move.prepare hasked.symm rfl
  | cons o asked => exact Move.prepare hasked.symm rfl

/-- Every turn of the loops is one of the moves. -/
theorem step_move [Fintype ι] (N : Network G rank) (hD : Discipline G outputs K D)
    (hO : FindOutputs G outputs) (I : Inv G total K D st rest) (hT : T total)
    (hsafe : Safe G K T st rest) (hphase : st.phase ≠ .finished) :
    ∃ st' total' rest', step G outputs st = .ok st' ∧ T total' ∧
      Move G K outputs st total rest st' total' rest' := by
  obtain ⟨c, queue, stack, phase⟩ := st
  cases phase with
  | finished => exact absurd rfl hphase
  | bfs =>
    cases queue with
    | nil => exact absurd rfl (I.searching rfl)
    | cons f queue =>
      obtain ⟨st', rest', hstep, hmove⟩ := bfsStep_move N I
      exact ⟨st', total, rest', hstep, hT, hmove⟩
  | pop =>
    cases stack with
    | nil => exact ⟨_, total, rest, rfl, hT, prepareStep_move hO⟩
    | cons f stack => exact popStep_move N (I.top_fires N hD hT hsafe)

end Moves

end PrivacyComputing.Hpda
