import Mathlib.Algebra.Order.BigOperators.Group.List
import Mathlib.Data.Finset.Max
import Mathlib.Data.Nat.Cast.Basic
import Mathlib.Data.Prod.Lex
import PrivacyComputing.HpdaInvariant

/-! `engine::run` comes to an end: every move hands on a record, fills a slot, ends a functor or,
with these unchanged, leaves less to be asked for. -/
namespace PrivacyComputing.Hpda

variable {ι α : Type*} [DecidableEq ι]

section Work
variable (G : ι → Functor ι α) (weight : ι → ℕ) (c : ι → Cell α)

/-- An input that its consumer may still ask for, unless it is engaged: in the queue or further
up on the stack. -/
def Missing (engaged : List ι) (w : ι) : Prop :=
  (c w).mHasValue = false ∧ (c w).mStatus ≠ .ended ∧ w ∉ engaged

instance (engaged : List ι) : DecidablePred (Missing c engaged) :=
  fun _ => inferInstanceAs (Decidable (_ ∧ _ ∧ _))

/-- The weight of the inputs that the entries of the stack may still ask for. -/
def demand (engaged : List ι) : List ι → ℕ
  | [] => 0
  | f :: stack =>
    (((G f).predecessors.filter (Missing c engaged)).map (weight · + 1)).sum +
      demand (f :: engaged) stack

/-- An output that is neither ended nor on its way. -/
def Idle (engaged : List ι) (o : ι) : Prop := (c o).mStatus ≠ .ended ∧ o ∉ engaged

instance (engaged : List ι) : DecidablePred (Idle c engaged) :=
  fun _ => inferInstanceAs (Decidable (_ ∧ _))

def work (outputs : List ι) (st : State ι α) : ℕ :=
  (st.toProcess.map weight).sum + demand G weight st.cells st.toProcess st.processing +
    st.processing.length +
    ((outputs.filter (Idle st.cells (st.toProcess ++ st.processing))).map (weight · + 1)).sum

def unended [Fintype ι] : ℕ := (Finset.univ.filter fun v => (c v).mStatus ≠ .ended).card

def level [Fintype ι] (st : State ι α) (rest : ι → List α) : ℕ :=
  potential st.cells rest + unended st.cells

end Work

section Sums
variable {G : ι → Functor ι α} {weight : ι → ℕ} {c c' : ι → Cell α}

omit [DecidableEq ι] in
lemma sum_filter_le (g : ι → ℕ) {p q : ι → Bool} (l : List ι) (h : ∀ w, p w = true → q w = true) :
    ((l.filter p).map g).sum ≤ ((l.filter q).map g).sum :=
  ((List.monotone_filter_right l h).map g).sum_le_sum (by simp)

omit [DecidableEq ι] in
lemma sum_filter_le_sum (g : ι → ℕ) (p : ι → Bool) (l : List ι) :
    ((l.filter p).map g).sum ≤ (l.map g).sum :=
  (List.filter_sublist.map g).sum_le_sum (by simp)

omit [DecidableEq ι] in
lemma sum_map_succ (g : ι → ℕ) (l : List ι) :
    (l.map (g · + 1)).sum = (l.map g).sum + l.length := by
  simp [List.sum_map_add]

lemma demand_le {engaged engaged' : List ι} (stack : List ι)
    (h : ∀ w, Missing c' engaged' w → Missing c engaged w) :
    demand G weight c' engaged' stack ≤ demand G weight c engaged stack := by
  induction stack generalizing engaged engaged' with
  | nil => exact le_rfl
  | cons f stack ih =>
    refine Nat.add_le_add (sum_filter_le _ _ fun w hw => ?_) (ih fun w hw => ?_)
    · simpa using h w (by simpa using hw)
    · obtain ⟨hhas, hstatus, hmem⟩ := hw
      have hw' := h w ⟨hhas, hstatus, fun hm => hmem (List.mem_cons_of_mem f hm)⟩
      refine ⟨hw'.1, hw'.2.1, ?_⟩
      simp only [List.mem_cons, not_or]
      exact ⟨fun he => hmem (he ▸ List.mem_cons_self), hw'.2.2⟩

lemma demand_cons_of_served {engaged : List ι} (f : ι) (stack : List ι)
    (h : ∀ w ∈ (G f).predecessors, ¬Missing c engaged w) :
    demand G weight c engaged (f :: stack) = demand G weight c (f :: engaged) stack := by
  have hnil : (G f).predecessors.filter (Missing c engaged) = [] := by
    apply List.filter_eq_nil_iff.mpr
    intro w hw
    simpa using h w hw
  simp [demand, hnil]

omit [DecidableEq ι] in
lemma unended_le [Fintype ι] (h : ∀ v, (c' v).mStatus ≠ .ended → (c v).mStatus ≠ .ended) :
    unended c' ≤ unended c := by
  apply Finset.card_le_card
  intro v hv
  simp only [Finset.mem_filter, Finset.mem_univ, true_and] at hv ⊢
  exact h v hv

omit [DecidableEq ι] in
lemma unended_lt [Fintype ι] {f : ι} (hf : (c f).mStatus ≠ .ended) (hf' : (c' f).mStatus = .ended)
    (h : ∀ v, (c' v).mStatus ≠ .ended → (c v).mStatus ≠ .ended) : unended c' < unended c := by
  apply Finset.card_lt_card
  refine ⟨?_, fun hsub => ?_⟩
  · intro v hv
    simp only [Finset.mem_filter, Finset.mem_univ, true_and] at hv ⊢
    exact h v hv
  · have hmem := hsub (Finset.mem_filter.mpr ⟨Finset.mem_univ f, hf⟩)
    exact (Finset.mem_filter.mp hmem).2 hf'

omit [DecidableEq ι] in
lemma potential_congr [Fintype ι] {rest : ι → List α}
    (h : ∀ w, (c' w).mHasValue = (c w).mHasValue) : potential c' rest = potential c rest := by
  simp only [potential, h]

end Sums

section Progress
variable [Fintype ι] {G : ι → Functor ι α} {rank weight : ι → ℕ} {total total' : ι → List α}
  {outputs : List ι} {K : ι → Prop} {D : List ι → List ι → Prop} {T : (ι → List α) → Prop}
  {st st' : State ι α}
  {c c' : ι → Cell α} {rest rest' : ι → List α} {stack queue asked : List ι} {f : ι}
  {phase : Phase} {ok : Bool}

def measure (G : ι → Functor ι α) (weight : ι → ℕ) (outputs : List ι) (st : State ι α)
    (rest : ι → List α) : ℕ ×ₗ ℕ :=
  toLex (level st rest, work G weight outputs st)

lemma measure_lt_of_level (h : level st' rest' < level st rest) :
    measure G weight outputs st' rest' < measure G weight outputs st rest :=
  Prod.Lex.toLex_lt_toLex.mpr (Or.inl h)

lemma measure_lt_of_work (h : level st' rest' ≤ level st rest)
    (hw : work G weight outputs st' < work G weight outputs st) :
    measure G weight outputs st' rest' < measure G weight outputs st rest := by
  rcases Nat.lt_or_eq_of_le h with hlt | heq
  · exact measure_lt_of_level hlt
  · exact Prod.Lex.toLex_lt_toLex.mpr (Or.inr ⟨heq, hw⟩)

lemma extract_lt (I : Inv G total K D ⟨c, f :: queue, stack, .bfs⟩ rest)
    (hfired : Fired G K total' f ok c c' rest rest') :
    level ⟨setStatus c' f (if ok then .null else .ended), queue, stack, phase⟩ rest' <
      level ⟨c, f :: queue, stack, .bfs⟩ rest := by
  have hstatus : (c f).mStatus = .toP := (I.queue_status f).mp List.mem_cons_self
  have hle : ∀ v, (setStatus c' f (if ok then .null else .ended) v).mStatus ≠ .ended →
      (c v).mStatus ≠ .ended := by
    intro v hv
    by_cases hvf : v = f
    · simp [hvf, hstatus]
    · rw [setStatus_mStatus, if_neg hvf, hfired.status] at hv
      exact hv
  have hpot : potential (setStatus c' f (if ok then .null else .ended)) rest' =
      potential c' rest' := potential_congr (by simp)
  simp only [level]
  rw [hpot]
  rcases hfired.progress with hlt | ⟨rfl, rfl, hhas⟩
  · have := unended_le hle
    omega
  · have hlt := unended_lt (f := f) (by simp [hstatus]) (by simp [setStatus_mStatus]) hle
    rw [potential_congr hhas]
    omega

lemma accept_lt (I : Inv G total K D ⟨c, queue, f :: stack, .pop⟩ rest)
    (hfired : Fired G K total' f true c c' rest rest') :
    level ⟨setStatus c' f .null, queue, stack, .pop⟩ rest' <
      level ⟨c, queue, f :: stack, .pop⟩ rest := by
  have hfended : (c f).mStatus ≠ .ended := fun h => hfired.ready rfl (I.ended f h).1
  have hle : ∀ v, (setStatus c' f .null v).mStatus ≠ .ended → (c v).mStatus ≠ .ended := by
    intro v hv
    by_cases hvf : v = f
    · rw [hvf]
      exact hfended
    · rw [setStatus_mStatus, if_neg hvf, hfired.status] at hv
      exact hv
  have hpot : potential (setStatus c' f .null) rest' = potential c' rest' :=
    potential_congr (by simp)
  simp only [level]
  rw [hpot]
  rcases hfired.progress with hlt | ⟨hok, -, -⟩
  · have := unended_le hle
    omega
  · exact absurd hok (by simp)

lemma ask_lt (I : Inv G total K D ⟨c, queue, f :: stack, .pop⟩ rest)
    (hfired : Fired G K total' f false c c' rest rest')
    (hasked : asked = (G f).predecessors.filter (Wanted c')) (hne : asked ≠ []) :
    measure G weight outputs ⟨askAll c' asked, queue ++ asked, f :: stack, .bfs⟩ rest' <
      measure G weight outputs ⟨c, queue, f :: stack, .pop⟩ rest := by
  have hqueue : queue = [] := I.popping rfl
  subst hqueue
  have hmem := mem_asked_iff hasked
  have htop := I.none_asked_fired hfired
  have hkeep : ∀ v, (askAll c' asked v).mStatus ≠ .ended → (c v).mStatus ≠ .ended := by
    intro v hv
    rw [← hfired.status]
    by_cases hva : v ∈ asked
    · exact ((hmem v).mp hva).2.2.2
    · rw [askAll_mStatus, if_neg hva] at hv
      exact hv
  have hpot : potential (askAll c' asked) rest' = potential c' rest' := potential_congr (by simp)
  have hle := unended_le hkeep
  rcases hfired.progress with hlt | ⟨-, rfl, hhas⟩
  · apply measure_lt_of_level
    simp only [level]
    omega
  · apply measure_lt_of_work
    · simp only [level]
      rw [hpot, potential_congr hhas]
      omega
    · have hfilter : (G f).predecessors.filter (Missing c []) = asked := by
        rw [hasked]
        apply List.filter_congr
        intro w _
        rw [decide_eq_decide]
        unfold Missing Wanted
        rw [← hhas, ← hfired.status]
        have hw := htop w
        simp [hw]
      have hnone : ∀ w ∈ (G f).predecessors, ¬Missing (askAll c' asked) asked w := by
        rintro w hw ⟨h1, h2, h3⟩
        rw [askAll_mHasValue] at h1
        rw [askAll_mStatus, if_neg h3] at h2
        exact h3 ((hmem w).mpr ⟨hw, h1, htop w, h2⟩)
      have hstack : demand G weight (askAll c' asked) (f :: asked) stack ≤
          demand G weight c [f] stack := by
        apply demand_le
        rintro w ⟨h1, h2, h3⟩
        refine ⟨?_, hkeep w h2, ?_⟩
        · rw [← hhas]
          simpa using h1
        · intro hwf
          exact h3 (List.mem_cons.mpr (Or.inl (List.mem_singleton.mp hwf)))
      have hidle : ((outputs.filter (Idle (askAll c' asked) (asked ++ f :: stack))).map
            (weight · + 1)).sum ≤
          ((outputs.filter (Idle c (f :: stack))).map (weight · + 1)).sum := by
        apply sum_filter_le
        intro o ho
        simp only [decide_eq_true_eq] at ho ⊢
        exact ⟨hkeep o ho.1, fun hm => ho.2 (List.mem_append_right _ hm)⟩
      have hpos := List.length_pos_of_ne_nil hne
      simp only [work, List.nil_append, List.map_nil, List.sum_nil]
      rw [demand_cons_of_served f stack hnone]
      have hold : demand G weight c [] (f :: stack) =
          ((asked.map weight).sum + asked.length) + demand G weight c [f] stack := by
        rw [demand, hfilter, sum_map_succ]
      rw [hold]
      omega

lemma finish_lt (I : Inv G total K D ⟨c, queue, f :: stack, .pop⟩ rest)
    (hfired : Fired G K total' f false c c' rest rest') :
    measure G weight outputs ⟨setStatus c' f .ended, queue, stack, .pop⟩ rest' <
      measure G weight outputs ⟨c, queue, f :: stack, .pop⟩ rest := by
  have hqueue : queue = [] := I.popping rfl
  subst hqueue
  have hkeep : ∀ v, (setStatus c' f .ended v).mStatus ≠ .ended →
      v ≠ f ∧ (c v).mStatus ≠ .ended := by
    intro v hv
    rw [setStatus_mStatus] at hv
    split_ifs at hv with hvf
    · exact absurd rfl hv
    · rw [hfired.status] at hv
      exact ⟨hvf, hv⟩
  have hpot : potential (setStatus c' f .ended) rest' = potential c' rest' :=
    potential_congr (by simp)
  have hle : unended (setStatus c' f .ended) ≤ unended c := unended_le fun v hv => (hkeep v hv).2
  rcases hfired.progress with hlt | ⟨-, rfl, hhas⟩
  · apply measure_lt_of_level
    simp only [level]
    omega
  · apply measure_lt_of_work
    · simp only [level]
      rw [hpot, potential_congr hhas]
      omega
    · have hstack : demand G weight (setStatus c' f .ended) [] stack ≤
          demand G weight c [f] stack := by
        apply demand_le
        rintro w ⟨h1, h2, -⟩
        refine ⟨?_, (hkeep w h2).2, ?_⟩
        · rw [← hhas]
          simpa using h1
        · intro hwf
          exact (hkeep w h2).1 (List.mem_singleton.mp hwf)
      have hidle : ((outputs.filter (Idle (setStatus c' f .ended) stack)).map
            (weight · + 1)).sum ≤
          ((outputs.filter (Idle c (f :: stack))).map (weight · + 1)).sum := by
        apply sum_filter_le
        intro o ho
        simp only [decide_eq_true_eq] at ho ⊢
        refine ⟨(hkeep o ho.1).2, fun hm => ?_⟩
        rcases List.mem_cons.mp hm with he | hs
        · exact (hkeep o ho.1).1 he
        · exact ho.2 hs
      simp only [work, List.nil_append, List.map_nil, List.sum_nil, List.length_cons, demand]
      omega

lemma push_lt (N : Network G rank) (hweight : ∀ v, ((G v).predecessors.map weight).sum + 2 ≤
    weight v) (I : Inv G total K D ⟨c, f :: queue, stack, .bfs⟩ rest)
    (hasked : asked = (G f).predecessors.filter (Wanted c)) :
    measure G weight outputs
        ⟨askAll (setStatus c f .p) asked, queue ++ asked, f :: stack, phase⟩ rest <
      measure G weight outputs ⟨c, f :: queue, stack, .bfs⟩ rest := by
  have hstatus : (c f).mStatus = .toP := (I.queue_status f).mp List.mem_cons_self
  have hmem := mem_asked_iff hasked
  have hkeep : ∀ v, (askAll (setStatus c f .p) asked v).mStatus ≠ .ended →
      (c v).mStatus ≠ .ended := by
    intro v hv
    by_cases hva : v ∈ asked
    · exact ((hmem v).mp hva).2.2.2
    by_cases hvf : v = f
    · simp [hvf, hstatus]
    · rw [askAll_mStatus, if_neg hva, setStatus_mStatus, if_neg hvf] at hv
      exact hv
  apply measure_lt_of_work
  · have hpot : potential (askAll (setStatus c f .p) asked) rest = potential c rest :=
      potential_congr (by simp)
    have hle := unended_le hkeep
    simp only [level]
    omega
  · have hnone : ∀ w ∈ (G f).predecessors,
        ¬Missing (askAll (setStatus c f .p) asked) (queue ++ asked) w := by
      rintro w hw ⟨h1, h2, h3⟩
      simp only [List.mem_append, not_or] at h3
      simp only [askAll_mHasValue, setStatus_mHasValue] at h1
      have htop : (c w).mStatus = .toP := by
        by_contra htop
        exact h3.2 ((hmem w).mpr ⟨hw, h1, htop, hkeep w h2⟩)
      rcases List.mem_cons.mp ((I.queue_status w).mpr htop) with he | hq
      · exact N.ne hw he
      · exact h3.1 hq
    have hstack : demand G weight (askAll (setStatus c f .p) asked) (f :: (queue ++ asked)) stack ≤
        demand G weight c (f :: queue) stack := by
      apply demand_le
      rintro w ⟨h1, h2, h3⟩
      refine ⟨by simpa using h1, hkeep w h2, fun hm => h3 ?_⟩
      rcases List.mem_cons.mp hm with he | hq
      · exact List.mem_cons.mpr (Or.inl he)
      · exact List.mem_cons_of_mem f (List.mem_append_left _ hq)
    have hidle : ((outputs.filter (Idle (askAll (setStatus c f .p) asked)
          ((queue ++ asked) ++ f :: stack))).map (weight · + 1)).sum ≤
        ((outputs.filter (Idle c ((f :: queue) ++ stack))).map (weight · + 1)).sum := by
      apply sum_filter_le
      intro o ho
      simp only [decide_eq_true_eq] at ho ⊢
      refine ⟨hkeep o ho.1, fun hm => ho.2 ?_⟩
      simp only [List.mem_append, List.mem_cons] at hm ⊢
      tauto
    have hsum : (asked.map weight).sum + 2 ≤ weight f := by
      have h1 := sum_filter_le_sum weight (Wanted c) (G f).predecessors
      have h2 := hweight f
      rw [hasked]
      omega
    simp only [work]
    rw [demand_cons_of_served f stack hnone]
    simp only [List.map_append, List.sum_append, List.map_cons, List.sum_cons, List.length_cons]
    omega

lemma prepare_lt (I : Inv G total K D ⟨c, queue, [], .pop⟩ rest)
    (hasked : asked = outputs.filter (Open c)) (hne : asked ≠ []) :
    measure G weight outputs ⟨askAll c asked, asked, [], phase⟩ rest <
      measure G weight outputs ⟨c, queue, [], .pop⟩ rest := by
  have hqueue : queue = [] := I.popping rfl
  subst hqueue
  have htop : ∀ v, (c v).mStatus ≠ .toP := I.none_asked
  have hkeep : ∀ v, (askAll c asked v).mStatus ≠ .ended → (c v).mStatus ≠ .ended := by
    intro v hv
    by_cases hva : v ∈ asked
    · rw [hasked] at hva
      have ho := (List.mem_filter.mp hva).2
      simp only [decide_eq_true_eq] at ho
      exact ho.1
    · rw [askAll_mStatus, if_neg hva] at hv
      exact hv
  apply measure_lt_of_work
  · have hpot : potential (askAll c asked) rest = potential c rest := potential_congr (by simp)
    have hle := unended_le hkeep
    simp only [level]
    omega
  · have hold : outputs.filter (Idle c []) = asked := by
      rw [hasked]
      apply List.filter_congr
      intro o _
      rw [decide_eq_decide]
      simp [Idle, Open, htop o]
    have hnew : outputs.filter (Idle (askAll c asked) asked) = [] := by
      apply List.filter_eq_nil_iff.mpr
      intro o ho
      simp only [decide_eq_true_eq]
      rintro ⟨h1, h2⟩
      apply h2
      rw [hasked, List.mem_filter]
      refine ⟨ho, ?_⟩
      simp only [decide_eq_true_eq]
      exact ⟨hkeep o h1, htop o⟩
    have hpos := List.length_pos_of_ne_nil hne
    simp only [work, demand, List.append_nil, hold, hnew, sum_map_succ, List.map_nil,
      List.sum_nil, List.length_nil]
    omega

theorem Move.measure_lt (N : Network G rank)
    (hweight : ∀ v, ((G v).predecessors.map weight).sum + 2 ≤ weight v)
    (h : Move G K outputs st total rest st' total' rest') (I : Inv G total K D st rest) :
    st'.phase = .finished ∨
      measure G weight outputs st' rest' < measure G weight outputs st rest := by
  cases h with
  | extract hnil hfired hphase => exact Or.inr (measure_lt_of_level (extract_lt I hfired))
  | push hne hasked hphase => exact Or.inr (push_lt N hweight I hasked)
  | accept hfired => exact Or.inr (measure_lt_of_level (accept_lt I hfired))
  | ask hfired hasked hne => exact Or.inr (ask_lt I hfired hasked hne)
  | finish hfired hnone => exact Or.inr (finish_lt I hfired)
  | @prepare _ _ _ _ _ asked hasked hphase =>
    by_cases hnil : asked = []
    · exact Or.inl (by simp [hphase, hnil])
    · exact Or.inr (prepare_lt I hasked hnil)

omit [DecidableEq ι] in
lemma Network.exists_weight (N : Network G rank) :
    ∃ weight : ι → ℕ, ∀ v, ((G v).predecessors.map weight).sum + 2 ≤ weight v := by
  refine ⟨fun v => (Fintype.card ι + 2) ^ (rank v + 1), fun v => ?_⟩
  have hle : ((G v).predecessors.map fun w => (Fintype.card ι + 2) ^ (rank w + 1)).sum ≤
      (G v).predecessors.length * (Fintype.card ι + 2) ^ rank v := by
    have hsum := List.sum_le_card_nsmul
      ((G v).predecessors.map fun w => (Fintype.card ι + 2) ^ (rank w + 1))
      ((Fintype.card ι + 2) ^ rank v) ?_
    · simpa using hsum
    · intro x hx
      obtain ⟨w, hw, rfl⟩ := List.mem_map.mp hx
      exact Nat.pow_le_pow_right (by omega) (N.rank_lt hw)
  have hlen : (G v).predecessors.length ≤ Fintype.card ι := (N.nodup v).length_le_card
  have hmul := Nat.mul_le_mul_right ((Fintype.card ι + 2) ^ rank v) hlen
  have hpos : 0 < (Fintype.card ι + 2) ^ rank v := Nat.pow_pos (by omega)
  have hpow : (Fintype.card ι + 2) ^ (rank v + 1) =
      Fintype.card ι * (Fintype.card ι + 2) ^ rank v + 2 * (Fintype.card ι + 2) ^ rank v := by
    rw [pow_succ, Nat.mul_comm, Nat.add_mul]
  simp only [hpow]
  omega

omit [Fintype ι] in
lemma step_finished (h : st.phase = .finished) : step G outputs st = .ok st := by
  unfold step
  rw [h]

/-- In a run that is safe outside `K` every state keeps the invariant. -/
theorem runSteps_inv (N : Network G rank) (hD : Discipline G outputs K D)
    (hO : FindOutputs G outputs) (I : Inv G total K D st rest) (hT : T total)
    (hsafe : ∀ st total rest, Inv G total K D st rest → T total → Safe G K T st rest) {n : ℕ}
    (hrun : runSteps G outputs n st = .ok st') :
    ∃ total' rest', T total' ∧ Inv G total' K D st' rest' := by
  induction n generalizing st total rest with
  | zero =>
    simp only [runSteps, Except.ok.injEq] at hrun
    exact ⟨total, rest, hT, hrun ▸ I⟩
  | succ n ih =>
    by_cases hphase : st.phase = .finished
    · simp only [runSteps, step_finished hphase] at hrun
      exact ih I hT hrun
    · obtain ⟨next, total', rest', hstep, hT', hmove⟩ :=
        step_move N hD hO I hT (hsafe st total rest I hT) hphase
      simp only [runSteps, hstep] at hrun
      exact ih (hmove.inv N hD hO I) hT' hrun

/-- From every state of the invariant the run comes to its end, if the states that it reaches are
safe. -/
theorem runSteps_finishes (N : Network G rank) (hD : Discipline G outputs K D)
    (hO : FindOutputs G outputs) (I : Inv G total K D st rest) (hT : T total)
    (hsafe : ∀ n st' total' rest', runSteps G outputs n st = .ok st' →
      Inv G total' K D st' rest' → T total' → Safe G K T st' rest') :
    ∃ n st' total' rest', runSteps G outputs n st = .ok st' ∧ st'.phase = .finished ∧
      T total' ∧ Inv G total' K D st' rest' := by
  obtain ⟨weight, hweight⟩ := N.exists_weight
  induction hm : measure G weight outputs st rest using WellFoundedLT.induction
    generalizing st total rest with
  | ind m ih =>
    by_cases hphase : st.phase = .finished
    · exact ⟨0, st, total, rest, rfl, hphase, hT, I⟩
    · obtain ⟨st', total', rest', hstep, hT', hmove⟩ :=
        step_move N hD hO I hT (hsafe 0 st total rest rfl I hT) hphase
      have I' := hmove.inv N hD hO I
      rcases hmove.measure_lt N hweight I with hfin | hlt
      · exact ⟨1, st', total', rest', by simp [runSteps, hstep], hfin, hT', I'⟩
      · obtain ⟨n, last, final, left, hrun, hlast⟩ := ih _ (hm ▸ hlt) I' hT'
          (fun n last final left hlast => hsafe (n + 1) last final left
            (by simp [runSteps, hstep, hlast])) rfl
        exact ⟨n + 1, last, final, left, by simp [runSteps, hstep, hrun], hlast⟩

/-- At the end every functor in `K` has ended. -/
lemma Inv.all_ended (N : Network G rank) (hD : Discipline G outputs K D)
    (I : Inv G total K D st rest) (hfin : st.phase = .finished) {v : ι} (hv : K v) :
    (st.cells v).mStatus = .ended := by
  classical
  by_contra hopen
  obtain ⟨w, hw, hmax⟩ := Finset.exists_max_image
    (Finset.univ.filter fun w => K w ∧ (st.cells w).mStatus ≠ .ended) rank
    ⟨v, by simp [hv, hopen]⟩
  obtain ⟨hK, hw'⟩ := (Finset.mem_filter.mp hw).2
  have hout : ¬IsOutput G w := fun h => hw' (I.finished hfin w h)
  simp only [IsOutput, not_forall, not_not] at hout
  obtain ⟨f, hf⟩ := hout
  have hlt := N.rank_lt hf
  have hfend : (st.cells f).mStatus = .ended := by
    by_contra hne
    have hle := hmax f (by simp [hD.consumer hK hf, hne])
    omega
  exact hw' ((I.ended f hfend).2 (hD.consumer hK hf) w hf)

end Progress

section Start
variable {G : ι → Functor ι α} {rank : ι → ℕ} {L : ι → List α} {outputs : List ι}
  {K : ι → Prop} {D : List ι → List ι → Prop}

/-- The records of a source that its index reaches: `m_index` is compared with the size as an
`int`. -/
def delivered (data : List α) : List α := data.take (castInt data.length).toNat

/-- What the functors hand on in all, from the sources down. A stream counts its records with an
`int32_t`. -/
def Solves (G : ι → Functor ι α) (L : ι → List α) : Prop := ∀ v,
  match G v with
  | .rawData data => L v = delivered data
  | .filter u func => L v = (L u).filter func
  | .concat u added => L v = ((u :: added).map L).flatten
  | .split u _ => L v = L u
  | .splitStream s => L v = L s ∧ (L v).length < 2 ^ 31
  | .memoryOutput u => L v = L u

omit [DecidableEq ι] in
lemma Solves.flow [Inhabited α] (h : Solves G L) : Flow G K L (fun v => initialCell (G v)) L := by
  intro v
  have hv := h v
  unfold FlowAt
  cases hG : G v with
  | rawData data =>
    simp only [hG] at hv
    simp [hG, initialCell, hv, delivered, Cell.Indexed, Cell.pending, Cell.next]
  | filter u func =>
    simp only [hG] at hv
    simp [hG, initialCell, hv, Cell.held]
  | concat u added =>
    simp only [hG] at hv
    simp [hG, initialCell, hv, Cell.held]
  | split u rs =>
    simp only [hG] at hv
    simp [hG, initialCell, hv]
  | splitStream s =>
    simp only [hG] at hv
    simp only [hG, initialCell]
    refine ⟨⟨by simp, by simp⟩, by simp [Cell.next], hv.2, by simp [hv.1], ?_⟩
    simp [Cell.pending, hv.1]
  | memoryOutput u =>
    simp only [hG] at hv
    simp [hG, initialCell, hv]

lemma Solves.inv [Inhabited α] (h : Solves G L) (hD : Discipline G outputs K D)
    (hO : FindOutputs G outputs) (hne : outputs ≠ []) :
    ∃ st, start G outputs = .ok st ∧ Inv G L K D st L := by
  refine ⟨_, if_neg hne, ?_⟩
  have hhas : ∀ v, (initialCell (G v)).mHasValue = false := by
    intro v
    cases G v <;> rfl
  have hstatus : ∀ v, (initialCell (G v)).mStatus = .null := by
    intro v
    cases G v <;> rfl
  refine ⟨?_, ?_, hO.1, ?_, ?_, ?_, by simp, trivial, by simp, by simp,
    hD.restart (List.Sublist.refl _), by simp, fun _ => hne, by simp⟩
  · apply h.flow.status
    intro v
    simp only
    split_ifs
    · exact ⟨.toP, rfl⟩
    · exact ⟨.null, by rw [← hstatus v]⟩
  · intro v hv
    simp only at hv
    split_ifs at hv
    rw [hstatus] at hv
    exact absurd hv (by simp)
  · intro v
    simp only
    split_ifs with hv
    · simp [hv]
    · simp [hv, hstatus]
  · intro v hv
    simp only at hv ⊢
    simp [hv, hhas]
  · intro v hv hout
    exact absurd ((hO.2 v).mp hv) hout

/-- The engine on a network whose stack and queue keep the discipline, in a run that is safe
outside `K`: the run ends, every
memory_output has what its pipeline hands on and every stream of a split has handed on all of its
records. -/
theorem run_delivers [Fintype ι] [Inhabited α] (N : Network G rank) (hD : Discipline G outputs K D)
    (hO : FindOutputs G outputs) (hne : outputs ≠ []) (hL : Solves G L)
    (hsafe : ∀ n st rest, run G outputs n = .ok st → Inv G L K D st rest →
      Safe G K (· = L) st rest) :
    ∃ n st, run G outputs n = .ok st ∧ st.phase = .finished ∧
      (∀ o u, G o = .memoryOutput u → (st.cells o).mData = L o) ∧
      ∀ r s, G r = .splitStream s → (st.cells r).mData = L r ∧
        (st.cells r).mHasValue = false ∧ (L r).length ≤ (st.cells r).next := by
  obtain ⟨st₀, hstart, I₀⟩ := hL.inv hD hO hne
  have hrun : ∀ n, run G outputs n = runSteps G outputs n st₀ := by
    intro n
    simp [run, hstart]
  obtain ⟨n, st, total, rest, hlast, hfin, rfl, I⟩ := runSteps_finishes (T := (· = L)) N hD hO I₀
    rfl fun n st total rest h I heq => hsafe n st rest ((hrun n).trans h) (heq ▸ I)
  refine ⟨n, st, (hrun n).trans hlast, hfin, ?_, ?_⟩
  · intro o u hG
    have hrest : rest o = [] := (I.ended o (I.finished hfin o ((N.output o).mpr ⟨u, hG⟩))).1
    have hF := I.flow o
    simp only [FlowAt, hG] at hF
    rw [hF.2.1, ← hF.2.2, hrest, List.append_nil]
  · intro r s hG
    have hrest : rest r = [] := (I.ended r (I.all_ended N hD hfin (hD.stream hG))).1
    have hF := I.flow r
    have hhas : (st.cells r).mHasValue = false := by
      by_contra h
      exact (I.flow r).rest_ne_nil (by simpa using h) hrest
    simp only [FlowAt, hG] at hF
    obtain ⟨-, -, hlt, htotal, hpending⟩ := hF
    rw [hrest, List.nil_eq, List.append_eq_nil_iff] at hpending
    rw [hpending.2, List.append_nil] at htotal
    refine ⟨htotal.symm, hhas, ?_⟩
    have hlen := congrArg List.length hpending.1
    rw [htotal] at hlt
    simp only [Cell.pending, castInt_of_lt hlt, Int.toNat_natCast, List.take_length,
      List.length_nil, List.length_drop] at hlen
    rw [htotal]
    omega

end Start

end PrivacyComputing.Hpda
