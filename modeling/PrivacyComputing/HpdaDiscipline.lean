import PrivacyComputing.HpdaTermination

/-! Two reasons why a concat or a stream stands on the stack and the queue once at most: it and
everything further down has a single consumer, or the searches visit every functor after all of
its consumers. -/
namespace PrivacyComputing.Hpda

variable {ι α : Type*} [DecidableEq ι] {G : ι → Functor ι α} {rank : ι → ℕ} {outputs : List ι}

section Solo

/-- The functors in `S` stand on the stack and the queue once at most. -/
def Solo (S : ι → Prop) (stack queue : List ι) : Prop := ∀ v, S v → (stack ++ queue).count v ≤ 1

theorem solo_discipline {S K : ι → Prop} (N : Network G rank) (hO : FindOutputs G outputs)
    (hconsumer : ∀ {c f}, K c → c ∈ (G f).predecessors → K f)
    (hstream : ∀ {r s}, G r = .splitStream s → K r)
    (hinputs : ∀ {f w}, K f → (∃ u added, G f = .concat u added) ∨ (∃ s, G f = .splitStream s) →
      w ∈ (G f).predecessors → K w)
    (hcareful : ∀ v, K v → Careful G v → S v)
    (hS : ∀ c f, S c → c ∈ (G f).predecessors →
      S f ∧ ∀ g, c ∈ (G g).predecessors → g = f) : Discipline G outputs K (Solo S) where
  consumer := hconsumer
  stream := hstream
  inputs := hinputs
  restart := by
    intro asked hsub v _
    exact List.nodup_iff_count_le_one.mp (hO.1.sublist hsub) v
  careful := by
    intro stack queue v h hK hv
    exact h v (hcareful v hK hv)
  shift := by
    intro f stack queue h v hv
    have hcount := h v hv
    simp only [List.count_append, List.count_cons] at hcount ⊢
    omega
  leave := by
    intro f stack queue h v hv
    have hcount := h v hv
    simp only [List.count_append, List.count_cons] at hcount ⊢
    omega
  pop := by
    intro f stack queue h v hv
    have hcount := h v hv
    simp only [List.count_append, List.count_cons] at hcount ⊢
    omega
  ask := by
    intro f stack queue asked h hlinked _ hsub hnew v hv
    have hcount := h v hv
    have hle : asked.count v ≤ 1 :=
      List.nodup_iff_count_le_one.mp ((N.nodup f).sublist hsub) v
    by_cases hmem : v ∈ asked
    · have hvf : v ∈ (G f).predecessors := hsub.subset hmem
      obtain ⟨hSf, honly⟩ := hS v f hv hvf
      have hstack : v ∉ stack := by
        intro hs
        obtain ⟨g, hg, hgv⟩ := hlinked.2.asked_of_mem hs fun hout => hout f hvf
        rw [honly g hgv] at hg
        have hfcount := h f hSf
        have hpos := List.count_pos_iff.mpr hg
        simp only [List.count_append, List.count_cons_self] at hfcount
        omega
      have h1 := List.count_eq_zero.mpr hstack
      have h2 := List.count_eq_zero.mpr (hnew v hmem)
      have h3 : (f :: stack).count v = stack.count v :=
        List.count_cons_of_ne (Ne.symm (N.ne hvf))
      simp only [List.count_append, h1, h2, h3]
      omega
    · have h0 := List.count_eq_zero.mpr hmem
      simp only [List.count_append] at hcount ⊢
      omega

end Solo

section BreadthFirst

/-- A numbering of the functors in which a breadth-first search from the outputs visits them:
the outputs first, every functor after its consumers, the inputs of a functor in their order and
after those of the functors before it. -/
structure BreadthFirst (G : ι → Functor ι α) (outputs : List ι) (order : ι → ℕ) : Prop where
  outputs_sorted : outputs.Pairwise (order · < order ·)
  outputs_first : ∀ {o v}, IsOutput G o → ¬IsOutput G v → order o < order v
  consumer_first : ∀ {f c}, c ∈ (G f).predecessors → order f < order c
  inputs_sorted : ∀ f, (G f).predecessors.Pairwise (order · < order ·)
  inputs_later : ∀ {f g c d}, order f < order g → c ∈ (G f).predecessors →
    d ∈ (G g).predecessors → order c < order d ∨ c = d

/-- The stack from the bottom and then the queue are in the order of the search. -/
def Ordered (order : ι → ℕ) (stack queue : List ι) : Prop :=
  (stack.reverse ++ queue).Pairwise (order · < order ·)

theorem breadthFirst_discipline {order : ι → ℕ} (B : BreadthFirst G outputs order) :
    Discipline G outputs (fun _ => True) (Ordered order) where
  consumer := by simp
  stream := by simp
  inputs := by simp
  restart := by
    intro asked hsub
    exact B.outputs_sorted.sublist hsub
  careful := by
    intro stack queue v h _ _
    have hnodup : (stack.reverse ++ queue).Nodup :=
      List.Pairwise.imp (fun hlt he => absurd hlt (by simp [he])) h
    have hcount := List.nodup_iff_count_le_one.mp hnodup v
    simpa [List.count_append] using hcount
  shift := by
    intro f stack queue h
    simpa [Ordered] using h
  leave := by
    intro f stack queue h
    exact List.Pairwise.sublist ((List.sublist_cons_self f queue).append_left _) h
  pop := by
    intro f stack queue h
    refine List.Pairwise.sublist (List.Sublist.append_right ?_ queue) h
    rw [List.reverse_cons]
    exact List.sublist_append_left _ _
  ask := by
    intro f stack queue asked h _ hasked hsub hnew
    have hbelow : ∀ x ∈ stack, order x < order f := by
      intro x hx
      unfold Ordered at h
      rw [List.reverse_cons, List.append_assoc] at h
      exact (List.pairwise_append.mp h).2.2 x (by simpa using hx) f (by simp)
    unfold Ordered
    rw [← List.append_assoc]
    refine List.pairwise_append.mpr ⟨h, (B.inputs_sorted f).sublist hsub, ?_⟩
    intro x hx w hw
    have hwf : w ∈ (G f).predecessors := hsub.subset hw
    rcases List.mem_append.mp hx with hs | hq
    · have hle : order x ≤ order f := by
        rcases List.mem_cons.mp (List.mem_reverse.mp hs) with he | hmem
        · rw [he]
        · exact (hbelow x hmem).le
      exact hle.trans_lt (B.consumer_first hwf)
    · by_cases hout : IsOutput G x
      · exact B.outputs_first hout fun h => h f hwf
      · obtain ⟨g, hg, hgx⟩ := (hasked x hq hout).mem
        rcases B.inputs_later (hbelow g hg) hgx hwf with hlt | he
        · exact hlt
        · exact absurd (he ▸ hq) (hnew w hw)

end BreadthFirst

section Outputs

omit [DecidableEq ι] in
lemma Network.exists_output [Fintype ι] [Nonempty ι] (N : Network G rank) :
    ∃ v, IsOutput G v := by
  obtain ⟨v, -, hmax⟩ := Finset.exists_max_image Finset.univ rank Finset.univ_nonempty
  refine ⟨v, fun f hf => ?_⟩
  have hlt := N.rank_lt hf
  have hle := hmax f (Finset.mem_univ f)
  omega

omit [DecidableEq ι] in
lemma Network.outputs_ne_nil [Fintype ι] [Nonempty ι] (N : Network G rank)
    (hO : FindOutputs G outputs) : outputs ≠ [] := by
  obtain ⟨v, hv⟩ := N.exists_output
  exact List.ne_nil_of_mem ((hO.2 v).mpr hv)

end Outputs

section Determinism
variable {st st' : State ι α}

lemma runSteps_finished (h : st.phase = .finished) (n : ℕ) : runSteps G outputs n st = .ok st := by
  induction n with
  | zero => rfl
  | succ n ih => simp [runSteps, step_finished h, ih]

lemma runSteps_add (n m : ℕ) (h : runSteps G outputs n st = .ok st') :
    runSteps G outputs (n + m) st = runSteps G outputs m st' := by
  induction n generalizing st with
  | zero =>
    simp only [runSteps, Except.ok.injEq] at h
    rw [h, Nat.zero_add]
  | succ n ih =>
    rw [Nat.add_right_comm]
    simp only [runSteps] at h ⊢
    cases hstep : step G outputs st with
    | error e => simp [hstep] at h
    | ok next =>
      simp only [hstep] at h ⊢
      exact ih h

lemma run_add [Inhabited α] {n m : ℕ} (h : run G outputs n = .ok st) :
    run G outputs (n + m) = runSteps G outputs m st := by
  unfold run at h ⊢
  cases hstart : start G outputs with
  | error e => simp [hstart] at h
  | ok first =>
    simp only [hstart] at h ⊢
    exact runSteps_add n m h

/-- Two runs that have come to their end have come to the same one. -/
theorem run_unique [Inhabited α] {n m : ℕ} (h : run G outputs n = .ok st)
    (hst : st.phase = .finished) (h' : run G outputs m = .ok st')
    (hst' : st'.phase = .finished) : st = st' := by
  have hn := run_add (m := m) h
  rw [Nat.add_comm, run_add h', runSteps_finished hst, runSteps_finished hst',
    Except.ok.injEq] at hn
  exact hn.symm

end Determinism

end PrivacyComputing.Hpda
