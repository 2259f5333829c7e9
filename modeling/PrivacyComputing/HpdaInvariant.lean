import PrivacyComputing.HpdaSchedule

/-! Every move of the engine keeps its invariant. -/
namespace PrivacyComputing.Hpda

variable {ι α : Type*} {G : ι → Functor ι α} {rank : ι → ℕ} {total total' : ι → List α}
  {outputs : List ι} {K : ι → Prop} {D : List ι → List ι → Prop} {st st' : State ι α}
  {c c' : ι → Cell α} {rest rest' : ι → List α} {stack queue asked : List ι} {f g v w : ι}
  {phase : Phase} {ok : Bool}

section Status

lemma Flow.status (h : Flow G K total c rest)
    (hc : ∀ v, ∃ status, c' v = { c v with mStatus := status }) : Flow G K total c' rest := by
  intro v
  obtain ⟨status, hv⟩ := hc v
  have hF := h v
  unfold FlowAt at hF ⊢
  cases hG : G v with
  | rawData | filter | concat | split | splitStream | memoryOutput =>
    simp only [hG] at hF ⊢
    rw [hv]
    exact hF

lemma Flow.setStatus [DecidableEq ι] (h : Flow G K total c rest) (v : ι) (status : Status) :
    Flow G K total (setStatus c v status) rest := by
  apply h.status
  intro w
  by_cases hw : w = v
  · exact ⟨status, by simp [Hpda.setStatus, hw]⟩
  · exact ⟨(c w).mStatus, by simp [Hpda.setStatus, modify_ne _ _ hw]⟩

lemma Flow.askAll [DecidableEq ι] (h : Flow G K total c rest) (asked : List ι) :
    Flow G K total (askAll c asked) rest := by
  apply h.status
  intro w
  by_cases hw : w ∈ asked
  · exact ⟨.toP, by simp [Hpda.askAll, hw]⟩
  · exact ⟨(c w).mStatus, by simp [Hpda.askAll, hw]⟩

end Status

section Waiting

lemma Served.congr (h : Served G c g w)
    (hstatus : (c w).mStatus = .ended → (c' w).mStatus = .ended)
    (hhas : (c' w).mHasValue = (c w).mHasValue) (hpending : (c' g).pending = (c g).pending) :
    Served G c' g w := by
  rcases h with h | h | h
  · exact Or.inl (hstatus h)
  · exact Or.inr (Or.inl ⟨h.1, hhas.trans h.2⟩)
  · exact Or.inr (Or.inr ⟨h.1, by rw [hpending]; exact h.2⟩)

variable [Fintype ι]

/-- Another functor's call of `process` takes nothing from a waiting functor. -/
lemma Fired.served (hfired : Fired G K total' f ok c c' rest rest') (N : Network G rank)
    (hF : Flow G K total c rest) (hf : w = f → (c f).mHasValue = false) (hgf : g ≠ f)
    (hg : (∃ s, G g = .splitStream s) → (c g).mHasValue = false) (hw : w ∈ (G g).predecessors)
    (h : Served G c g w) : Served G c' g w := by
  rcases h with h | h | h
  · exact Or.inl ((hfired.status w).trans h)
  · refine Or.inr (Or.inl ⟨h.1, ?_⟩)
    rw [hfired.other w ?_ ?_, h.2]
    · intro hmem
      exact hgf (hF.only_consumer N h.2 hmem hw)
    · intro he
      rw [he, hf he] at h
      exact absurd h.2 (by simp)
  · obtain ⟨s, hs⟩ := h.1
    exact Or.inr (Or.inr ⟨⟨s, hs⟩, hfired.pending g s hs hgf (hg ⟨s, hs⟩) h.2⟩)

/-- A functor that has a value after the call of `process` on another one had it before. -/
lemma Fired.had [DecidableEq ι] (hfired : Fired G K total' f ok c c' rest rest') (hvf : v ≠ f)
    (hv : (c' v).mHasValue = true) : (c v).mHasValue = true := by
  by_cases hmem : v ∈ (G f).predecessors
  · exact (hfired.input v hmem hv).1
  · rw [hfired.other v hmem hvf] at hv
    exact hv

lemma Fired.ended (hfired : Fired G K total' f ok c c' rest rest') (h : rest v = []) :
    rest' v = [] := by
  have hs := hfired.sublist v
  rw [h] at hs
  exact List.sublist_nil.mp hs

/-- After a call of `process` that failed no input of the functor has a value, unless the functor
is a concat outside `K`. -/
lemma Fired.inputs_empty (hfired : Fired G K total' f false c c' rest rest')
    (hf : (∃ u added, G f = .concat u added) → K f) (hw : w ∈ (G f).predecessors) :
    (c' w).mHasValue = false := by
  by_contra h
  obtain ⟨-, hok, hconcat⟩ := hfired.input w hw (by simpa using h)
  exact absurd (hok (hf hconcat)) (by simp)

end Waiting

section Once
variable [DecidableEq ι] (hD : Discipline G outputs K D)
include hD

lemma Discipline.not_below (h : D (f :: stack) queue) (hK : K f) (hf : Careful G f) :
    f ∉ stack := by
  intro hmem
  have hcount := hD.careful h hK hf
  have hpos := List.count_pos_iff.mpr hmem
  simp only [List.count_append, List.count_cons_self] at hcount
  omega

lemma Discipline.waiting_ne (h : D (f :: stack) queue) (hg : g ∈ stack) (hK : K g)
    (hwait : (∃ u added, G g = .concat u added) ∨ ∃ s, G g = .splitStream s) : g ≠ f := by
  rintro rfl
  rcases hwait with hconcat | hstream
  · exact hD.not_below h hK (Or.inl hconcat) hg
  · exact hD.not_below h hK (Or.inr (Or.inl hstream)) hg

/-- A stream on the stack has no value. -/
lemma Inv.stream_empty (I : Inv G total K D st rest) (N : Network G rank) {s : ι}
    (hG : G v = .splitStream s) (hmem : v ∈ st.processing) : (st.cells v).mHasValue = false := by
  by_contra hhas
  have hv : (st.cells v).mHasValue = true := by simpa using hhas
  have hout : ¬IsOutput G v := by
    rw [N.output]
    simp [hG]
  obtain ⟨post, hpost⟩ := above_split hmem
  have hK : K v := hD.stream hG
  obtain ⟨f, hf, hfv⟩ := I.held v hK hv hmem
  have hlinked := I.linked
  rw [hpost] at hlinked
  obtain ⟨g, hg, hgv⟩ := (hlinked.asked_of_append hout).mem
  have hgf : g = f := I.flow.only_consumer N hv hfv hgv
  have hcount := hD.careful I.discipline (hD.consumer hK hfv)
    (Or.inr (Or.inr ⟨v, s, hG, hfv⟩))
  have h1 := List.count_pos_iff.mpr hf
  have h2 := List.count_pos_iff.mpr (hgf ▸ hg)
  rw [hpost] at hcount
  simp only [List.count_append, List.count_cons] at hcount
  omega

end Once

/-- After a turn of the search the stack is popped if the queue is empty. -/
lemma phase_spec (h : phase = if queue = [] then .pop else .bfs) :
    (phase = .pop → queue = []) ∧ (phase = .bfs → queue ≠ []) ∧ phase ≠ .finished := by
  rw [h]
  split_ifs with hq <;> simp [hq]

lemma mem_asked_iff (hasked : asked = (G f).predecessors.filter (Wanted c)) (w : ι) :
    w ∈ asked ↔ w ∈ (G f).predecessors ∧ Wanted c w := by
  simp [hasked]

section Moves
variable [DecidableEq ι] [Fintype ι]

/-- While the stack is popped nothing is asked, also after a call of `process`. -/
lemma Inv.none_asked_fired (I : Inv G total K D ⟨c, queue, stack, .pop⟩ rest)
    (hfired : Fired G K total' f ok c c' rest rest') (v : ι) : (c' v).mStatus ≠ .toP := by
  rw [hfired.status]
  exact I.none_asked v

lemma Inv.queue_status_fired (I : Inv G total K D ⟨c, [], stack, .pop⟩ rest)
    (hfired : Fired G K total' f ok c c' rest rest') {status : Status} (hstatus : status ≠ .toP)
    (v : ι) : v ∈ [] ↔ (setStatus c' f status v).mStatus = .toP := by
  rw [setStatus_mStatus]
  by_cases hvf : v = f
  · simp [hvf, hstatus]
  · rw [if_neg hvf, hfired.status, ← I.queue_status]

lemma Inv.extract (N : Network G rank) (hD : Discipline G outputs K D)
    (I : Inv G total K D ⟨c, f :: queue, stack, .bfs⟩ rest) (hnil : (G f).predecessors = [])
    (hfired : Fired G K total' f ok c c' rest rest')
    (hphase : phase = if queue = [] then .pop else .bfs) :
    Inv G total' K D ⟨setStatus c' f (if ok then .null else .ended), queue, stack, phase⟩
      rest' := by
  have hempty : (c f).mHasValue = false := I.queue_empty f List.mem_cons_self
  have hstatus : (c f).mStatus = .toP := (I.queue_status f).mp List.mem_cons_self
  obtain ⟨hfq, hqnodup⟩ := List.nodup_cons.mp I.queue_nodup
  have hother : ∀ v, v ≠ f → (c' v).mHasValue = (c v).mHasValue := by
    intro v hv
    exact hfired.other v (by simp [hnil]) hv
  have hout : ¬IsOutput G f := by
    rw [N.output]
    rintro ⟨u, hG⟩
    simp [hG, Functor.predecessors] at hnil
  have hstream : ∀ s, G f ≠ .splitStream s := by
    intro s hG
    simp [hG, Functor.predecessors] at hnil
  obtain ⟨hpop, hbfs, hfinished⟩ := phase_spec hphase
  refine ⟨hfired.flow.setStatus f _, ?_, hqnodup, ?_, ?_, ?_, I.stacked, I.linked, ?_, ?_,
    hD.leave I.discipline, hpop, hbfs, fun h => absurd h hfinished⟩
  · intro v hv
    simp only [setStatus_mStatus] at hv ⊢
    by_cases hvf : v = f
    · subst hvf
      simp only [if_true] at hv
      cases ok with
      | true => simp at hv
      | false =>
        refine ⟨?_, by simp [hnil]⟩
        apply (hfired.flow v).rest_nil hfired.self (by simp [hnil])
        intro hs
        exact hfired.drained rfl hs
    · rw [if_neg hvf, hfired.status] at hv
      obtain ⟨hrest, hpred⟩ := I.ended v hv
      refine ⟨hfired.ended hrest, ?_⟩
      intro hK w hw
      have hwf : w ≠ f := by
        intro he
        have hw' := hpred hK w hw
        simp only [he, hstatus] at hw'
        exact absurd hw' (by simp)
      rw [if_neg hwf, hfired.status]
      exact hpred hK w hw
  · intro v
    simp only [setStatus_mStatus]
    by_cases hvf : v = f
    · subst hvf
      rw [if_pos rfl]
      cases ok <;> simp [hfq]
    · rw [if_neg hvf, hfired.status, ← I.queue_status]
      simp [hvf]
  · intro v hv
    have hvf : v ≠ f := fun he => hfq (he ▸ hv)
    simp only [setStatus_mHasValue]
    rw [hother v hvf]
    exact I.queue_empty v (List.mem_cons_of_mem f hv)
  · intro v hv
    exact I.queue_asked v (List.mem_cons_of_mem f hv)
  · intro v hK hv hmem
    by_cases hvf : v = f
    · rw [hvf]
      exact I.queue_asked f List.mem_cons_self hout
    · simp only [setStatus_mHasValue] at hv
      rw [hother v hvf] at hv
      exact I.held v hK hv hmem
  · intro g hg hK hwait w hw
    have hgf : g ≠ f := by
      intro he
      rw [he, hnil] at hw
      simp at hw
    rcases I.cover g hg hK hwait w hw with h | h | h
    · refine Or.inl ((hfired.served N I.flow (fun _ => hempty) hgf ?_ hw h).congr ?_ (by simp)
        (by simp))
      · rintro ⟨s, hs⟩
        exact I.stream_empty hD N hs hg
      · intro hw'
        have hwf : w ≠ f := by
          intro he
          rw [hfired.status, he, hstatus] at hw'
          exact absurd hw' (by simp)
        rw [setStatus_mStatus, if_neg hwf]
        exact hw'
    · exact Or.inr (Or.inl h)
    · by_cases hwf : w = f
      · subst hwf
        refine Or.inl ?_
        cases ok with
        | false => exact Or.inl (by simp [setStatus_mStatus])
        | true =>
          refine Or.inr (Or.inl ⟨?_, ?_⟩)
          · rcases hwait with hconcat | ⟨s, hs⟩
            · exact hconcat
            · simp only [hs, Functor.predecessors, List.mem_singleton] at hw
              have hsplit := N.stream_split hs
              rw [← hw] at hsplit
              cases hG : G w <;> simp [hG, Functor.IsSplit, Functor.predecessors] at hsplit hnil
          · have hholds : (G w).holdsValue = true := by
              cases hG : G w <;> simp [hG, Functor.predecessors, Functor.holdsValue] at hnil ⊢
            simp [hfired.self, hholds]
      · rcases List.mem_cons.mp h with he | hmem
        · exact absurd he hwf
        · exact Or.inr (Or.inr hmem)

omit [Fintype ι] in
lemma Inv.push (N : Network G rank) (hD : Discipline G outputs K D)
    (I : Inv G total K D ⟨c, f :: queue, stack, .bfs⟩ rest) (hne : (G f).predecessors ≠ [])
    (hasked : asked = (G f).predecessors.filter (Wanted c))
    (hphase : phase = if queue ++ asked = [] then .pop else .bfs) :
    Inv G total K D ⟨askAll (setStatus c f .p) asked, queue ++ asked, f :: stack, phase⟩ rest := by
  have hempty : (c f).mHasValue = false := I.queue_empty f List.mem_cons_self
  have hstatus : (c f).mStatus = .toP := (I.queue_status f).mp List.mem_cons_self
  obtain ⟨hfq, hqnodup⟩ := List.nodup_cons.mp I.queue_nodup
  have hmem := mem_asked_iff hasked
  have hnew : ∀ w ∈ asked, w ∉ queue := by
    intro w hw hq
    exact ((hmem w).mp hw).2.2.1 ((I.queue_status w).mp (List.mem_cons_of_mem f hq))
  have hfa : f ∉ asked := fun h => N.ne ((hmem f).mp h).1 rfl
  have hkeep : ∀ v, (c v).mStatus = .ended →
      (askAll (setStatus c f .p) asked v).mStatus = .ended := by
    intro v hv
    have hva : v ∉ asked := fun h => ((hmem v).mp h).2.2.2 hv
    have hvf : v ≠ f := by
      intro he
      rw [he, hstatus] at hv
      exact absurd hv (by simp)
    rw [askAll_mStatus, if_neg hva, setStatus_mStatus, if_neg hvf, hv]
  obtain ⟨hpop, hbfs, hfinished⟩ := phase_spec hphase
  refine ⟨(I.flow.setStatus f _).askAll asked, ?_, ?_, ?_, ?_, ?_,
    List.forall_mem_cons.mpr ⟨hne, I.stacked⟩, ⟨?_, I.linked⟩, ?_, ?_, ?_, hpop, hbfs,
    fun h => absurd h hfinished⟩
  · intro v hv
    simp only [askAll_mStatus, setStatus_mStatus] at hv
    split_ifs at hv with h1 h2
    obtain ⟨hrest, hpred⟩ := I.ended v hv
    exact ⟨hrest, fun hK w hw => hkeep w (hpred hK w hw)⟩
  · refine List.nodup_append.mpr ⟨hqnodup, ?_, ?_⟩
    · rw [hasked]
      exact (N.nodup f).filter _
    · intro v hv w hw he
      exact hnew w hw (he ▸ hv)
  · intro v
    simp only [askAll_mStatus, setStatus_mStatus]
    by_cases hva : v ∈ asked
    · simp [hva]
    by_cases hvf : v = f
    · simp [hvf, hfa, hfq]
    · rw [if_neg hva, if_neg hvf, ← I.queue_status]
      simp [hva, hvf]
  · intro v hv
    simp only [askAll_mHasValue, setStatus_mHasValue]
    rcases List.mem_append.mp hv with h | h
    · exact I.queue_empty v (List.mem_cons_of_mem f h)
    · exact ((hmem v).mp h).2.1
  · intro v hv hout
    rcases List.mem_append.mp hv with h | h
    · apply (I.queue_asked v (List.mem_cons_of_mem f h) hout).cons
      intro he
      exact hfq (he ▸ h)
    · have hvf := ((hmem v).mp h).1
      exact Asked.top hvf (Ne.symm (N.ne hvf))
  · exact I.queue_asked f List.mem_cons_self
  · intro v hK hv hvs
    simp only [askAll_mHasValue, setStatus_mHasValue] at hv
    have hvf : f ≠ v := by
      intro he
      rw [← he, hempty] at hv
      exact absurd hv (by simp)
    rcases List.mem_cons.mp hvs with he | hs
    · exact absurd he.symm hvf
    · exact (I.held v hK hv hs).cons hvf
  · intro g hg hK hwait w hw
    by_cases hgf : g = f
    · subst hgf
      by_cases hwanted : Wanted c w
      · exact Or.inr (Or.inr (List.mem_append_right _ ((hmem w).mpr ⟨hw, hwanted⟩)))
      by_cases hhas : (c w).mHasValue = true
      · refine Or.inl (Or.inr (Or.inl ⟨?_, by simpa using hhas⟩))
        rcases hwait with hconcat | ⟨s, hs⟩
        · exact hconcat
        · simp only [hs, Functor.predecessors, List.mem_singleton] at hw
          rw [hw, I.flow.split_empty (N.stream_split hs)] at hhas
          exact absurd hhas (by simp)
      by_cases hend : (c w).mStatus = .ended
      · exact Or.inl (Or.inl (hkeep w hend))
      · have htop : (c w).mStatus = .toP := by
          by_contra htop
          exact hwanted ⟨by simpa using hhas, htop, hend⟩
        have hwq := (I.queue_status w).mpr htop
        rcases List.mem_cons.mp hwq with he | hq
        · exact absurd he (N.ne hw)
        · exact Or.inr (Or.inr (List.mem_append_left _ hq))
    · have hgs : g ∈ stack := (List.mem_cons.mp hg).resolve_left hgf
      rcases I.cover g hgs hK hwait w hw with h | h | h
      · exact Or.inl (h.congr (hkeep w) (by simp) (by simp))
      · refine Or.inr (Or.inl ?_)
        simp only
        rw [above_cons (Ne.symm hgf)]
        exact List.mem_cons_of_mem f h
      · rcases List.mem_cons.mp h with he | hq
        · refine Or.inr (Or.inl ?_)
          simp only
          rw [above_cons (Ne.symm hgf), he]
          exact List.mem_cons_self
        · exact Or.inr (Or.inr (List.mem_append_left _ hq))
  · apply hD.ask (hD.shift I.discipline) ⟨I.queue_asked f List.mem_cons_self, I.linked⟩
    · intro v hv
      exact I.queue_asked v (List.mem_cons_of_mem f hv)
    · rw [hasked]
      exact List.filter_sublist
    · exact hnew

lemma Inv.accept (N : Network G rank) (hD : Discipline G outputs K D)
    (I : Inv G total K D ⟨c, queue, f :: stack, .pop⟩ rest)
    (hfired : Fired G K total' f true c c' rest rest') :
    Inv G total' K D ⟨setStatus c' f .null, queue, stack, .pop⟩ rest' := by
  have hqueue : queue = [] := I.popping rfl
  subst hqueue
  have hfended : (c f).mStatus ≠ .ended := fun h => hfired.ready rfl (I.ended f h).1
  refine ⟨hfired.flow.setStatus f _, ?_, List.nodup_nil, ?_, by simp, by simp,
    fun v hv => I.stacked v (List.mem_cons_of_mem f hv), I.linked.2, ?_, ?_, hD.pop I.discipline,
    fun _ => rfl, by simp, by simp⟩
  · intro v hv
    simp only [setStatus_mStatus] at hv ⊢
    split_ifs at hv with hvf
    rw [hfired.status] at hv
    obtain ⟨hrest, hpred⟩ := I.ended v hv
    refine ⟨hfired.ended hrest, ?_⟩
    intro hK w hw
    have hwf : w ≠ f := fun he => hfended (he ▸ hpred hK w hw)
    rw [if_neg hwf, hfired.status]
    exact hpred hK w hw
  · exact I.queue_status_fired hfired (by simp)
  · intro v hK hv hvs
    simp only [setStatus_mHasValue] at hv
    by_cases hvf : v = f
    · subst hvf
      apply I.linked.1
      rw [N.output]
      rintro ⟨u, hG⟩
      rw [hfired.self] at hv
      simp [hG, Functor.holdsValue] at hv
    have hhad := hfired.had hvf hv
    by_cases hmem : v ∈ (G f).predecessors
    · obtain ⟨-, -, u, added, hG⟩ := hfired.input v hmem hv
      have hnot := hD.not_below I.discipline (hD.consumer hK hmem) (Or.inl ⟨u, added, hG⟩)
      obtain ⟨g, hg, hgv⟩ := I.linked.2.asked_of_mem hvs fun hout => hout f hmem
      rw [I.flow.only_consumer N hhad hmem hgv] at hg
      exact absurd hg hnot
    · exact (I.held v hK hhad (List.mem_cons_of_mem f hvs)).of_cons hmem
  · intro g hg hK hwait w hw
    have hgf : g ≠ f := hD.waiting_ne I.discipline hg hK hwait
    have hempty : w = f → (c f).mHasValue = false :=
      fun he => I.top_empty (he ▸ hD.inputs hK hwait hw)
    have hstream : (∃ s, G g = .splitStream s) → (c g).mHasValue = false := by
      rintro ⟨s, hs⟩
      exact I.stream_empty hD N hs (List.mem_cons_of_mem f hg)
    rcases I.cover g (List.mem_cons_of_mem f hg) hK hwait w hw with h | h | h
    · refine Or.inl ((hfired.served N I.flow hempty hgf hstream hw h).congr ?_ (by simp)
        (by simp))
      intro hw'
      have hwf : w ≠ f := by
        intro he
        rw [hfired.status, he] at hw'
        exact hfended hw'
      rw [setStatus_mStatus, if_neg hwf]
      exact hw'
    · simp only at h
      rw [above_cons (Ne.symm hgf)] at h
      rcases List.mem_cons.mp h with he | habove
      · subst he
        refine Or.inl (Or.inr ?_)
        rcases hwait with hconcat | ⟨s, hs⟩
        · refine Or.inl ⟨hconcat, ?_⟩
          obtain ⟨u, added, hG⟩ := hconcat
          have hholds : (G w).holdsValue = true := by
            cases hGw : G w with
            | split u rs =>
              have hr := N.split_consumer (by simp [hGw, Functor.IsSplit]) hw
              rw [hG] at hr
              exact absurd hr (by simp)
            | memoryOutput u => exact absurd hw ((N.output w).mpr ⟨u, hGw⟩ g)
            | rawData | filter | concat | splitStream => rfl
          simp [hfired.self, hholds]
        · refine Or.inr ⟨⟨s, hs⟩, ?_⟩
          simp only [hs, Functor.predecessors, List.mem_singleton] at hw
          simpa using hfired.fill rfl g (hw ▸ hs)
      · exact Or.inr (Or.inl habove)
    · simp at h

lemma Inv.ask (N : Network G rank) (hD : Discipline G outputs K D)
    (I : Inv G total K D ⟨c, queue, f :: stack, .pop⟩ rest)
    (hfired : Fired G K total' f false c c' rest rest')
    (hasked : asked = (G f).predecessors.filter (Wanted c')) (hne : asked ≠ []) :
    Inv G total' K D ⟨askAll c' asked, queue ++ asked, f :: stack, .bfs⟩ rest' := by
  have hqueue : queue = [] := I.popping rfl
  subst hqueue
  have hmem := mem_asked_iff hasked
  have htop := I.none_asked_fired hfired
  have hkeep : ∀ v, (c v).mStatus = .ended → (askAll c' asked v).mStatus = .ended := by
    intro v hv
    rw [← hfired.status] at hv
    have hva : v ∉ asked := fun h => ((hmem v).mp h).2.2.2 hv
    rw [askAll_mStatus, if_neg hva, hv]
  rw [List.nil_append]
  refine ⟨hfired.flow.askAll asked, ?_, ?_, ?_, ?_, ?_, I.stacked, I.linked, ?_, ?_, ?_, by simp,
    fun _ => hne, by simp⟩
  · intro v hv
    simp only [askAll_mStatus] at hv
    split_ifs at hv
    rw [hfired.status] at hv
    obtain ⟨hrest, hpred⟩ := I.ended v hv
    exact ⟨hfired.ended hrest, fun hK w hw => hkeep w (hpred hK w hw)⟩
  · simp only [hasked]
    exact (N.nodup f).filter _
  · intro v
    simp only [askAll_mStatus]
    by_cases hva : v ∈ asked
    · simp [hva]
    · simp [hva, htop v]
  · intro v hv
    simp only [askAll_mHasValue]
    exact ((hmem v).mp hv).2.1
  · intro v hv _
    have hvf := ((hmem v).mp hv).1
    exact Asked.top hvf (Ne.symm (N.ne hvf))
  · intro v hK hv hvs
    simp only [askAll_mHasValue] at hv
    have hvf : v ≠ f := by
      intro he
      rw [he, hfired.self] at hv
      simp at hv
    exact I.held v hK (hfired.had hvf hv) hvs
  · intro g hg hK hwait w hw
    by_cases hgf : g = f
    · subst hgf
      by_cases hwanted : Wanted c' w
      · exact Or.inr (Or.inr ((hmem w).mpr ⟨hw, hwanted⟩))
      · refine Or.inl (Or.inl (hkeep w ?_))
        rw [← hfired.status]
        by_contra hend
        exact hwanted ⟨hfired.inputs_empty (fun _ => hK) hw, htop w, hend⟩
    · have hempty : w = f → (c f).mHasValue = false :=
        fun he => I.top_empty (he ▸ hD.inputs hK hwait hw)
      rcases I.cover g hg hK hwait w hw with h | h | h
      · refine Or.inl ((hfired.served N I.flow hempty hgf ?_ hw h).congr ?_ (by simp) (by simp))
        · rintro ⟨s, hs⟩
          exact I.stream_empty hD N hs hg
        · intro hw'
          rw [hfired.status] at hw'
          exact hkeep w hw'
      · exact Or.inr (Or.inl h)
      · simp at h
  · rw [← List.nil_append asked]
    apply hD.ask I.discipline I.linked (by simp)
    · rw [hasked]
      exact List.filter_sublist
    · simp

lemma Inv.finish (N : Network G rank) (hD : Discipline G outputs K D)
    (I : Inv G total K D ⟨c, queue, f :: stack, .pop⟩ rest)
    (hfired : Fired G K total' f false c c' rest rest')
    (hnone : ∀ w ∈ (G f).predecessors, ¬Wanted c' w) :
    Inv G total' K D ⟨setStatus c' f .ended, queue, stack, .pop⟩ rest' := by
  have hqueue : queue = [] := I.popping rfl
  subst hqueue
  have hpreds : ∀ w ∈ (G f).predecessors, (c' w).mHasValue = false → (c w).mStatus = .ended := by
    intro w hw hhas
    by_contra hend
    refine hnone w hw ⟨hhas, ?_, ?_⟩
    · rw [hfired.status]
      exact I.none_asked w
    · rw [hfired.status]
      exact hend
  have hkeep : ∀ v, (c v).mStatus = .ended → (setStatus c' f .ended v).mStatus = .ended := by
    intro v hv
    rw [setStatus_mStatus, hfired.status, hv]
    simp
  refine ⟨hfired.flow.setStatus f _, ?_, List.nodup_nil, ?_, by simp, by simp,
    fun v hv => I.stacked v (List.mem_cons_of_mem f hv), I.linked.2, ?_, ?_, hD.pop I.discipline,
    fun _ => rfl, by simp, by simp⟩
  · intro v hv
    by_cases hvf : v = f
    · subst hvf
      refine ⟨?_, fun hK w hw => hkeep w (hpreds w hw (hfired.inputs_empty (fun _ => hK) hw))⟩
      by_cases hover : (∃ u added, G v = .concat u added) ∧ ¬K v
      · exact hfired.exhausted rfl hover.2 hover.1
      apply (hfired.flow v).rest_nil hfired.self
      · intro w hw
        have hhas := hfired.inputs_empty (fun h => not_not.mp fun hK => hover ⟨h, hK⟩) hw
        exact hfired.ended (I.ended w (hpreds w hw hhas)).1
      · intro hs
        exact hfired.drained rfl hs
    · simp only [setStatus_mStatus, if_neg hvf] at hv
      rw [hfired.status] at hv
      obtain ⟨hrest, hpred⟩ := I.ended v hv
      exact ⟨hfired.ended hrest, fun hK w hw => hkeep w (hpred hK w hw)⟩
  · exact I.queue_status_fired hfired (by simp)
  · intro v hK hv hvs
    simp only [setStatus_mHasValue] at hv
    have hvf : v ≠ f := by
      intro he
      rw [he, hfired.self] at hv
      simp at hv
    have hmem : v ∉ (G f).predecessors := by
      intro hmem
      rw [hfired.inputs_empty (fun _ => hD.consumer hK hmem) hmem] at hv
      exact absurd hv (by simp)
    exact (I.held v hK (hfired.had hvf hv) (List.mem_cons_of_mem f hvs)).of_cons hmem
  · intro g hg hK hwait w hw
    have hempty : w = f → (c f).mHasValue = false :=
      fun he => I.top_empty (he ▸ hD.inputs hK hwait hw)
    have hgf : g ≠ f := hD.waiting_ne I.discipline hg hK hwait
    rcases I.cover g (List.mem_cons_of_mem f hg) hK hwait w hw with h | h | h
    · refine Or.inl ((hfired.served N I.flow hempty hgf ?_ hw h).congr ?_ (by simp) (by simp))
      · rintro ⟨s, hs⟩
        exact I.stream_empty hD N hs (List.mem_cons_of_mem f hg)
      · intro hw'
        rw [hfired.status] at hw'
        exact hkeep w hw'
    · simp only at h
      rw [above_cons (Ne.symm hgf)] at h
      rcases List.mem_cons.mp h with he | habove
      · exact Or.inl (Or.inl (by simp [setStatus_mStatus, he]))
      · exact Or.inr (Or.inl habove)
    · simp at h

omit [Fintype ι] in
lemma Inv.prepare (N : Network G rank) (hD : Discipline G outputs K D) (hO : FindOutputs G outputs)
    (I : Inv G total K D ⟨c, queue, [], .pop⟩ rest) (hasked : asked = outputs.filter (Open c))
    (hphase : phase = if asked = [] then .finished else .bfs) :
    Inv G total K D ⟨askAll c asked, asked, [], phase⟩ rest := by
  have hqueue : queue = [] := I.popping rfl
  subst hqueue
  have hmem : ∀ v, v ∈ asked ↔ IsOutput G v ∧ Open c v := by
    intro v
    simp [hasked, hO.2]
  have htop : ∀ v, (c v).mStatus ≠ .toP := I.none_asked
  have hkeep : ∀ v, (c v).mStatus = .ended → (askAll c asked v).mStatus = .ended := by
    intro v hv
    have hva : v ∉ asked := fun h => ((hmem v).mp h).2.1 hv
    rw [askAll_mStatus, if_neg hva, hv]
  refine ⟨I.flow.askAll asked, ?_, ?_, ?_, ?_, ?_, by simp, trivial, by simp, by simp, ?_, ?_, ?_,
    ?_⟩
  · intro v hv
    simp only [askAll_mStatus] at hv
    split_ifs at hv
    obtain ⟨hrest, hpred⟩ := I.ended v hv
    exact ⟨hrest, fun hK w hw => hkeep w (hpred hK w hw)⟩
  · simp only [hasked]
    exact hO.1.filter _
  · intro v
    simp only [askAll_mStatus]
    by_cases hva : v ∈ asked
    · simp [hva]
    · simp [hva, htop v]
  · intro v hv
    obtain ⟨u, hG⟩ := (N.output v).mp ((hmem v).mp hv).1
    have hF := I.flow v
    simp only [FlowAt, hG] at hF
    simpa using hF.1
  · intro v hv hout
    exact absurd ((hmem v).mp hv).1 hout
  · apply hD.restart
    rw [hasked]
    exact List.filter_sublist
  · intro hp
    simp only [hphase] at hp
    split_ifs at hp
  · intro hp
    simp only [hphase] at hp
    split_ifs at hp with hq
    exact hq
  · intro hp v hv
    simp only [hphase] at hp
    split_ifs at hp with hq
    apply hkeep
    by_contra hend
    have hva := (hmem v).mpr ⟨hv, hend, htop v⟩
    simp [hq] at hva

theorem Move.inv (N : Network G rank) (hD : Discipline G outputs K D) (hO : FindOutputs G outputs)
    (h : Move G K outputs st total rest st' total' rest') (I : Inv G total K D st rest) :
    Inv G total' K D st' rest' := by
  cases h with
  | extract hnil hfired hphase => exact I.extract N hD hnil hfired hphase
  | push hne hasked hphase => exact I.push N hD hne hasked hphase
  | accept hfired => exact I.accept N hD hfired
  | ask hfired hasked hne => exact I.ask N hD hfired hasked hne
  | finish hfired hnone => exact I.finish N hD hfired hnone
  | prepare hasked hphase => exact I.prepare N hD hO hasked hphase

end Moves

end PrivacyComputing.Hpda
