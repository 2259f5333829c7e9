import PrivacyComputing.HpdaProcess

/-! Calls of `process` on a filter or a concat, ready or not: the value that stands in its slot is
lost, and a concat loses what the inputs without a value that it moves past have still to hand
on. A functor that is ready loses nothing. -/
namespace PrivacyComputing.Hpda

variable {ι α : Type*} {G : ι → Functor ι α} {rank : ι → ℕ} {K : ι → Prop} {total : ι → List α}
  {c c' : ι → Cell α} {rest rest' : ι → List α} {f u v w : ι} {ok : Bool}

section Passed

/-- The inputs without a value that the loop of `concat_impl::process` moves past. -/
def passed (G : ι → Functor ι α) (c : ι → Cell α) (f : ι) : List ι :=
  match G f with
  | .concat u added => ((u :: added).drop (c f).mUpperIndex).takeWhile fun w => !(c w).mHasValue
  | _ => []

lemma passed_concat {added : List ι} (hG : G f = .concat u added) :
    passed G c f =
      ((u :: added).drop (c f).mUpperIndex).takeWhile fun w => !(c w).mHasValue := by
  simp [passed, hG]

lemma mem_passed (hw : w ∈ passed G c f) :
    w ∈ (G f).predecessors ∧ (c w).mHasValue = false ∧ ∃ u added, G f = .concat u added := by
  cases hG : G f with
  | concat u added =>
    rw [passed_concat hG] at hw
    have hmem := List.mem_of_mem_drop ((List.takeWhile_sublist _).subset hw)
    exact ⟨hmem, by simpa using List.mem_takeWhile_imp hw, u, added, rfl⟩
  | rawData | filter | split | splitStream | memoryOutput => simp [passed, hG] at hw

/-- Where the loop of `concat_impl::process` stops. -/
lemma skipEmpty_spec {uppers skipped : List ι} {index : ℕ}
    (hskipped : skipped = (uppers.drop index).takeWhile fun w => !(c w).mHasValue) :
    uppers.take (skipEmpty c uppers index) = uppers.take index ++ skipped ∧
      uppers.drop index = skipped ++ uppers.drop (skipEmpty c uppers index) ∧
      ∀ w, uppers[skipEmpty c uppers index]? = some w → (c w).mHasValue = true := by
  have hhead : ∀ w, ((uppers.drop index).dropWhile fun u => !(c u).mHasValue).head? = some w →
      (c w).mHasValue = true := by
    intro w hw
    have hnot := List.head?_dropWhile_not (fun u => !(c u).mHasValue) (uppers.drop index)
    simpa [hw] using hnot
  have hl := List.takeWhile_append_dropWhile (p := fun u => !(c u).mHasValue)
    (l := uppers.drop index)
  unfold skipEmpty
  rw [← hskipped] at hl ⊢
  generalize (uppers.drop index).dropWhile (fun u => !(c u).mHasValue) = others at *
  have hdrop : uppers.drop (index + skipped.length) = others := by
    rw [← List.drop_drop, ← hl, List.drop_left]
  refine ⟨?_, ?_, ?_⟩
  · rw [List.take_add, ← hl, List.take_left]
  · rw [hdrop, hl]
  · intro w hw
    rw [← List.head?_drop, hdrop] at hw
    exact hhead w hw

end Passed

section Lost
variable [DecidableEq ι]

lemma settle_true_self (h : (G v).holdsValue = true) (hne : w ≠ v) (change : Cell α → Cell α) :
    settle G true (resetDoneValue (modify c v change) w) v v =
      { change (c v) with mHasValue := true } := by
  simp [settle, doneValue_of_holds h, setHasValue, resetDoneValue, modify_ne _ _ (Ne.symm hne)]

lemma settle_true_input (h : (G v).holdsValue = true) (hne : w ≠ v) (change : Cell α → Cell α) :
    settle G true (resetDoneValue (modify c v change) w) v w =
      { c w with mHasValue := false } := by
  simp [settle, doneValue_of_holds h, setHasValue, resetDoneValue, modify_ne _ _ hne]

lemma settle_true_other (h : (G v).holdsValue = true) {y : ι} (hy : y ≠ v) (hyw : y ≠ w)
    (change : Cell α → Cell α) :
    settle G true (resetDoneValue (modify c v change) w) v y = c y := by
  simp [settle, doneValue_of_holds h, setHasValue, resetDoneValue, modify_ne _ _ hy,
    modify_ne _ _ hyw]


/-- What a call of `process` on functor `f` loses of the records that are left. -/
def lost (G : ι → Functor ι α) (c : ι → Cell α) (read : ι → List α) (f : ι) : List α :=
  (c f).held ++ ((passed G c f).map read).flatten

/-- What comes out at functor `v` of the records `xs` of functor `f`. -/
def reaching (G : ι → Functor ι α) (c : ι → Cell α) (f : ι) (xs : List α) : ℕ → ι → List α
  | 0, v => if v = f then xs else []
  | fuel + 1, v => if v = f then xs else passOn G c (reaching G c f xs fuel) v

lemma reaching_self (c : ι → Cell α) (f : ι) (xs : List α) (fuel : ℕ) :
    reaching G c f xs fuel f = xs := by
  cases fuel <;> simp [reaching]

lemma reaching_nil (c : ι → Cell α) (f : ι) (fuel : ℕ) (v : ι) :
    reaching G c f [] fuel v = [] := by
  induction fuel generalizing v with
  | zero => simp [reaching]
  | succ fuel ih =>
    rw [reaching, passOn_nil fun u _ => ih u]
    simp

/-- The value of an input that the call has taken. -/
def Taken (G : ι → Functor ι α) (c c' : ι → Cell α) (f w : ι) : Prop :=
  w ∈ (G f).predecessors ∧ (c w).mHasValue = true ∧ c' w = { c w with mHasValue := false }

lemma cells_of_taken (hw : Taken G c c' f w) (h : ∀ v, v ≠ f → v ≠ w → c' v = c v) :
    ∀ v, v ≠ f → c' v = c v ∨ Taken G c c' f v := by
  intro v hv
  by_cases hvw : v = w
  · rw [hvw]
    exact Or.inr hw
  · exact Or.inl (h v hv hvw)

/-- What a call of `process` on functor `f` and the update of its slot do, whether or not the
functor is ready. -/
structure Popped (G : ι → Functor ι α) (c c' : ι → Cell α) (rest : ι → List α) (f : ι)
    (ok : Bool) : Prop where
  cells : ∀ v, v ≠ f → c' v = c v ∨ Taken G c c' f v
  status : (c' f).mStatus = (c f).mStatus
  self : (c' f).mHasValue = ok
  took : ok = true → ∃ w, Taken G c c' f w
  emptied : ∀ w ∈ (G f).predecessors, (c' w).mHasValue = true → ∃ u added, G f = .concat u added
  exhausted : ok = false → (∃ u added, G f = .concat u added) →
    (G f).predecessors.drop (c' f).mUpperIndex = []
  skipped : (∃ u added, G f = .concat u added) →
    ∀ w ∈ (G f).predecessors.take (c' f).mUpperIndex,
      w ∈ (G f).predecessors.take (c f).mUpperIndex ∨ w ∈ passed G c f
  record : ∀ rest', Balanced G c' rest' → rest f = lost G c rest f ++ rest' f

section Others
variable (N : Network G rank) (hF : Flow G K total c rest)
  (hcells : ∀ v, v ≠ f → c' v = c v ∨ Taken G c c' f v)
include N hF hcells

omit [DecidableEq ι] in
lemma cell_unchanged (hu : u ∈ (G v).predecessors) (hv : v ≠ f) (huf : u ≠ f) : c' u = c u := by
  rcases hcells u huf with h | ⟨hmem, hhas, -⟩
  · exact h
  · exact absurd (hF.only_consumer N hhas hmem hu) hv

omit [DecidableEq ι] in
/-- Nothing changes above the inputs of the functor. -/
lemma rest_unchanged (hbal : Balanced G c' rest') (hlt : rank v < rank f) (hc : c' v = c v) :
    rest' v = rest v := by
  induction hn : rank v using Nat.strong_induction_on generalizing v with
  | _ n ih =>
    rw [hbal v, hF.balanced v, own_congr hc]
    congr 1
    apply passOn_congr (by rw [hc])
    intro u hu
    have hlt' := N.rank_lt hu
    have huf : u ≠ f := fun he => by
      rw [he] at hlt'
      omega
    have hvf : v ≠ f := fun he => by
      rw [he] at hlt
      omega
    exact ih _ (by omega) (by omega) (cell_unchanged N hF hcells hu hvf huf) rfl

lemma rest_taken (hbal : Balanced G c' rest') (hw : Taken G c c' f w) :
    ∃ x, outputValue G c w = .ok x ∧ rest w = x :: rest' w := by
  obtain ⟨hmem, hhas, hcell⟩ := hw
  have hlt := N.rank_lt hmem
  obtain ⟨x, tail, hx, hrest, htake⟩ := (hF w).take hhas
  refine ⟨x, hx, ?_⟩
  have hinput : ∀ u ∈ (G w).predecessors, rest' u = rest u := by
    intro u hu
    have hlt' := N.rank_lt hu
    have huf : u ≠ f := fun he => by
      rw [he] at hlt'
      omega
    exact rest_unchanged N hF hcells hbal (by omega)
      (cell_unchanged N hF hcells hu (N.ne hmem) huf)
  have hflow := htake c' (Function.update rest' w tail) hcell (by simp) fun u hu => by
    rw [Function.update_of_ne (N.ne hu), hinput u hu]
  have hb := hflow.balanced
  rw [Function.update_self, passOn_congr rfl fun u hu => Function.update_of_ne (N.ne hu) _ _,
    ← hbal w] at hb
  rw [hrest, hb]

end Others

lemma popped_filter (N : Network G rank) (hF : Flow G K total c rest) {func : α → Bool}
    (hG : G f = .filter u func) :
    ∃ ok c₁, process G c f = .ok (ok, c₁) ∧ Popped G c (settle G ok c₁ f) rest f ok := by
  have hmem : u ∈ (G f).predecessors := by simp [hG, Functor.predecessors]
  have hne : u ≠ f := N.ne hmem
  have hholds : (G f).holdsValue = true := by simp [hG, Functor.holdsValue]
  have honly : ∀ w ∈ (G f).predecessors, w = u := by simp [hG, Functor.predecessors]
  have hrest : rest f = (c f).held ++ (rest u).filter func := by
    simpa [own, passOn, hG] using hF.balanced f
  have hlost : lost G c rest f = (c f).held := by simp [lost, passed, hG]
  have hnew : ∀ c' rest', Balanced G c' rest' →
      rest' f = (c' f).held ++ (rest' u).filter func := by
    intro c' rest' hbal
    simpa [own, passOn, hG] using hbal f
  cases hu : (c u).mHasValue with
  | false =>
    have hcell : ∀ v, v ≠ f → settle G false c f v = c v := by
      intro v hv
      simp only [settle, Bool.false_eq_true, if_false]
      rw [resetDoneValue, setHasValue, modify_ne _ _ hv]
    have hself : settle G false c f f = { c f with mHasValue := false } := by
      simp [settle, resetDoneValue, setHasValue]
    have hcells : ∀ v, v ≠ f → settle G false c f v = c v ∨ Taken G c (settle G false c f) f v :=
      fun v hv => Or.inl (hcell v hv)
    refine ⟨false, c, by simp [process, hG, hu], hcells, by rw [hself], by rw [hself], by simp,
      ?_, by simp [hG], by simp [hG], ?_⟩
    · intro w hw hhas
      rw [honly w hw, hcell u hne, hu] at hhas
      exact absurd hhas (by simp)
    · intro rest' hbal
      have hsame := rest_unchanged N hF hcells hbal (N.rank_lt hmem) (hcell u hne)
      rw [hlost, hrest, hnew _ rest' hbal, hself, hsame]
      simp [Cell.held]
  | true =>
    obtain ⟨x, tail, hx, -, -⟩ := (hF u).take hu
    have htaken : ∀ c' rest', (∀ v, v ≠ f → c' v = c v ∨ Taken G c c' f v) →
        c' u = { c u with mHasValue := false } → Balanced G c' rest' → rest u = x :: rest' u := by
      intro c' rest' hcells hcell hbal
      obtain ⟨y, hy, htail⟩ := rest_taken N hF hcells hbal ⟨hmem, hu, hcell⟩
      rw [hx, Except.ok.injEq] at hy
      rw [htail, hy]
    by_cases hfx : func x = true
    · have hself := settle_true_self (c := c) hholds hne ({ · with mValue := x })
      have hinput := settle_true_input (c := c) hholds hne ({ · with mValue := x })
      have hcell : ∀ v, v ≠ f → v ≠ u →
          settle G true (resetDoneValue (modify c f ({ · with mValue := x })) u) f v = c v :=
        fun v hv hvu => settle_true_other hholds hv hvu _
      have hprocess : process G c f =
          .ok (true, resetDoneValue (modify c f ({ · with mValue := x })) u) := by
        simp [process, hG, hu, hx, hfx]
      refine ⟨true, _, hprocess, ?_⟩
      generalize settle G true (resetDoneValue (modify c f ({ · with mValue := x })) u) f = c' at *
      have hcells := cells_of_taken ⟨hmem, hu, hinput⟩ hcell
      refine ⟨hcells, by rw [hself], by rw [hself], fun _ => ⟨u, hmem, hu, hinput⟩, ?_, by simp,
        by simp [hG], ?_⟩
      · intro w hw hhas
        rw [honly w hw, hinput] at hhas
        exact absurd hhas (by simp)
      · intro rest' hbal
        rw [hlost, hrest, hnew _ rest' hbal, hself, htaken _ rest' hcells hinput hbal]
        simp [Cell.held, hfx]
    · have hself : settle G false (resetDoneValue c u) f f = { c f with mHasValue := false } := by
        simp [settle, resetDoneValue, setHasValue, modify_ne _ _ (Ne.symm hne)]
      have hinput : settle G false (resetDoneValue c u) f u = { c u with mHasValue := false } := by
        simp [settle, resetDoneValue, setHasValue, modify_ne _ _ hne]
      have hcell : ∀ v, v ≠ f → v ≠ u → settle G false (resetDoneValue c u) f v = c v := by
        intro v hv hvu
        simp [settle, resetDoneValue, setHasValue, modify_ne _ _ hv, modify_ne _ _ hvu]
      have hprocess : process G c f = .ok (false, resetDoneValue c u) := by
        simp [process, hG, hu, hx, hfx]
      refine ⟨false, _, hprocess, ?_⟩
      generalize settle G false (resetDoneValue c u) f = c' at *
      have hcells := cells_of_taken ⟨hmem, hu, hinput⟩ hcell
      refine ⟨hcells, by rw [hself], by rw [hself], by simp, ?_, by simp [hG],
        by simp [hG], ?_⟩
      · intro w hw hhas
        rw [honly w hw, hinput] at hhas
        exact absurd hhas (by simp)
      · intro rest' hbal
        rw [hlost, hrest, hnew _ rest' hbal, hself, htaken _ rest' hcells hinput hbal]
        simp [Cell.held, hfx]

lemma popped_concat (N : Network G rank) (hF : Flow G K total c rest) {added : List ι}
    (hG : G f = .concat u added) :
    ∃ ok c₁, process G c f = .ok (ok, c₁) ∧ Popped G c (settle G ok c₁ f) rest f ok := by
  have hpred : (G f).predecessors = u :: added := by simp [hG, Functor.predecessors]
  have hholds : (G f).holdsValue = true := by simp [hG, Functor.holdsValue]
  have hrest : rest f =
      (c f).held ++ (((G f).predecessors.drop (c f).mUpperIndex).map rest).flatten := by
    simpa [own, passOn, hG, Functor.predecessors] using hF.balanced f
  have hnew : ∀ c' rest', Balanced G c' rest' → rest' f =
      (c' f).held ++ (((G f).predecessors.drop (c' f).mUpperIndex).map rest').flatten := by
    intro c' rest' hbal
    simpa [own, passOn, hG, Functor.predecessors] using hbal f
  have hnone : (u :: added)[skipEmpty c (u :: added) (c f).mUpperIndex]? = none →
      process G c f = .ok (false,
        modify c f ({ · with mUpperIndex := skipEmpty c (u :: added) (c f).mUpperIndex })) := by
    intro h
    simp only [process, hG, h]
  have hsome : ∀ w x, (u :: added)[skipEmpty c (u :: added) (c f).mUpperIndex]? = some w →
      outputValue G c w = .ok x → process G c f = .ok (true, resetDoneValue
        (modify c f ({ · with
          mUpperIndex := skipEmpty c (u :: added) (c f).mUpperIndex, mValue := x })) w) := by
    intro w x h hx
    simp only [process, hG, h, hx]
  obtain ⟨htake, hdrop, hstop⟩ := skipEmpty_spec (passed_concat hG)
  generalize skipEmpty c (u :: added) (c f).mUpperIndex = index at *
  rw [← hpred] at htake hdrop hstop hnone hsome
  have hskipped : ∀ w ∈ (G f).predecessors.take index,
      w ∈ (G f).predecessors.take (c f).mUpperIndex ∨ w ∈ passed G c f := by
    intro w hw
    rw [htake] at hw
    exact List.mem_append.mp hw
  cases hw : (G f).predecessors[index]? with
  | none =>
    have hend : (G f).predecessors.drop index = [] :=
      List.drop_eq_nil_of_le (List.getElem?_eq_none_iff.mp hw)
    have hself : settle G false (modify c f ({ · with mUpperIndex := index })) f f =
        { c f with mUpperIndex := index, mHasValue := false } := by
      simp [settle, resetDoneValue, setHasValue]
    have hcells : ∀ v, v ≠ f →
        settle G false (modify c f ({ · with mUpperIndex := index })) f v = c v ∨
          Taken G c (settle G false (modify c f ({ · with mUpperIndex := index })) f) f v := by
      intro v hv
      left
      simp [settle, resetDoneValue, setHasValue, modify_ne _ _ hv]
    refine ⟨false, _, hnone hw, hcells, by rw [hself], by rw [hself], by simp,
      fun _ _ _ => ⟨u, added, hG⟩, fun _ _ => by rw [hself, hend],
      fun _ => hself ▸ hskipped, ?_⟩
    intro rest' hbal
    rw [lost, hrest, hnew _ rest' hbal, hself, hdrop, hend]
    simp [Cell.held]
  | some w =>
    have hhas := hstop w hw
    have hmem : w ∈ (G f).predecessors := List.mem_of_getElem? hw
    have hne : w ≠ f := N.ne hmem
    obtain ⟨x, tail, hx, -, -⟩ := (hF w).take hhas
    have hself := settle_true_self (c := c) hholds hne
      ({ · with mUpperIndex := index, mValue := x })
    have hinput := settle_true_input (c := c) hholds hne
      ({ · with mUpperIndex := index, mValue := x })
    have hcell : ∀ v, v ≠ f → v ≠ w → settle G true (resetDoneValue
        (modify c f ({ · with mUpperIndex := index, mValue := x })) w) f v = c v :=
      fun v hv hvw => settle_true_other hholds hv hvw _
    refine ⟨true, _, hsome w x hw hx, ?_⟩
    generalize settle G true (resetDoneValue
      (modify c f ({ · with mUpperIndex := index, mValue := x })) w) f = c' at *
    have hcells := cells_of_taken ⟨hmem, hhas, hinput⟩ hcell
    refine ⟨hcells, by rw [hself], by rw [hself], fun _ => ⟨w, hmem, hhas, hinput⟩,
      fun _ _ _ => ⟨u, added, hG⟩, by simp, fun _ => hself ▸ hskipped, ?_⟩
    intro rest' hbal
    obtain ⟨y, hy, htail⟩ := rest_taken N hF hcells hbal ⟨hmem, hhas, hinput⟩
    rw [hx, Except.ok.injEq] at hy
    have hcons : (G f).predecessors.drop index = w :: (G f).predecessors.drop (index + 1) := by
      obtain ⟨hlt, hget⟩ := List.getElem?_eq_some_iff.mp hw
      rw [List.drop_eq_getElem_cons hlt, hget]
    have hnodup := (N.nodup f).sublist (List.drop_sublist index _)
    rw [hcons, List.nodup_cons] at hnodup
    have hmap : ((G f).predecessors.drop (index + 1)).map rest' =
        ((G f).predecessors.drop (index + 1)).map rest := by
      apply List.map_congr_left
      intro v hv
      have hvf := List.mem_of_mem_drop hv
      have hvw : v ≠ w := fun he => hnodup.1 (he ▸ hv)
      exact rest_unchanged N hF hcells hbal (N.rank_lt hvf) (hcell v (N.ne hvf) hvw)
    rw [lost, hrest, hnew _ rest' hbal, hself, hdrop, hcons]
    simp [Cell.held, htail, hy, hmap]

end Lost

section After
variable [DecidableEq ι] (N : Network G rank) (hF : Flow G K total c rest)
  (P : Popped G c c' rest f ok) (hbal : Balanced G c' rest')
include N hF P hbal

lemma Popped.sublist (v : ι) : (rest' v).Sublist (rest v) := by
  induction hn : rank v using Nat.strong_induction_on generalizing v with
  | _ n ih =>
    by_cases hvf : v = f
    · rw [hvf, P.record rest' hbal]
      exact List.sublist_append_right _ _
    rcases P.cells v hvf with hc | htaken
    · rw [hbal v, hF.balanced v, own_congr hc]
      refine (List.Sublist.refl _).append (passOn_sublist (by rw [hc]) fun u hu => ?_)
      have hlt := N.rank_lt hu
      exact ih _ (by omega) u rfl
    · obtain ⟨x, -, hx⟩ := rest_taken N hF P.cells hbal htaken
      rw [hx]
      exact List.sublist_cons_self x _

/-- What comes out at a functor of the lost records is what it hands on less. -/
theorem Popped.perm (fuel : ℕ) : ∀ v, rank v ≤ fuel → ¬Taken G c c' f v →
    (rest' v ++ reaching G c f (lost G c rest f) fuel v).Perm (rest v) := by
  induction fuel with
  | zero =>
    intro v hv htaken
    by_cases hvf : v = f
    · rw [hvf, reaching_self, P.record rest' hbal]
      exact List.perm_append_comm
    · have hc := (P.cells v hvf).resolve_right htaken
      have hnil : ∀ read : ι → List α, ∀ u ∈ (G v).predecessors, read u = [] := by
        simp [N.no_input (v := v) (by omega)]
      rw [hbal v, hF.balanced v, own_congr hc, passOn_nil (hnil _), passOn_nil (hnil _), reaching,
        if_neg hvf, List.append_nil]
  | succ fuel ih =>
    intro v hv htaken
    by_cases hvf : v = f
    · rw [hvf, reaching_self, P.record rest' hbal]
      exact List.perm_append_comm
    · have hc := (P.cells v hvf).resolve_right htaken
      have hinputs : ∀ u ∈ (G v).predecessors,
          (rest' u ++ reaching G c f (lost G c rest f) fuel u).Perm (rest u) := by
        intro u hu
        have hlt := N.rank_lt hu
        refine ih u (by omega) ?_
        rintro ⟨hmem, hhas, -⟩
        exact hvf (hF.only_consumer N hhas hmem hu)
      rw [hbal v, hF.balanced v, own_congr hc, reaching, if_neg hvf, List.append_assoc]
      exact List.Perm.append_left _ (passOn_perm (by rw [hc]) hinputs)

/-- A functor that has handed nothing on has fewer records to come by the lost ones that would have
come out there. -/
lemma Popped.length_rest (htaken : ¬Taken G c c' f v) {fuel : ℕ} (hv : rank v ≤ fuel) :
    (rest' v).length + (reaching G c f (lost G c rest f) fuel v).length = (rest v).length := by
  have h := (P.perm N hF hbal fuel v hv htaken).length_eq
  simpa using h

lemma Popped.rest_eq (htaken : ¬Taken G c c' f v) {fuel : ℕ} (hv : rank v ≤ fuel)
    (h : reaching G c f (lost G c rest f) fuel v = []) : rest' v = rest v := by
  have hlen := P.length_rest N hF hbal htaken hv
  rw [h, List.length_nil, Nat.add_zero] at hlen
  exact (P.sublist N hF hbal v).eq_of_length hlen

end After

section Firing
variable [DecidableEq ι]

/-- What the functors that store what they receive have received at the end. -/
def received (G : ι → Functor ι α) (c : ι → Cell α) (rest : ι → List α) (total : ι → List α)
    (v : ι) : List α :=
  match G v with
  | .splitStream s => (c v).mData ++ rest s
  | .memoryOutput u => (c v).mData ++ rest u
  | _ => total v

omit [DecidableEq ι] in
lemma Flow.received_eq (hF : Flow G K total c rest)
    (h : ∀ v u, G v = .splitStream u ∨ G v = .memoryOutput u → rest' u = rest u) :
    received G c rest' total = total := by
  funext v
  have hv := hF v
  unfold FlowAt at hv
  unfold received
  cases hG : G v with
  | splitStream s =>
    simp only [hG] at hv ⊢
    rw [h v s (Or.inl hG)]
    exact hv.2.2.2.1.symm
  | memoryOutput u =>
    simp only [hG] at hv ⊢
    rw [h v u (Or.inr hG)]
    exact hv.2.1.symm
  | rawData | filter | concat | split => rfl

/-- A functor that takes values in and hands values on. -/
def Functor.IsTransform : Functor ι α → Prop
  | .filter _ _ => True
  | .concat _ _ => True
  | _ => False

lemma popped (N : Network G rank) (hF : Flow G K total c rest) (hf : (G f).IsTransform) :
    ∃ ok c₁, process G c f = .ok (ok, c₁) ∧ Popped G c (settle G ok c₁ f) rest f ok := by
  cases hG : G f with
  | filter u func => exact popped_filter N hF hG
  | concat u added => exact popped_concat N hF hG
  | rawData | split | splitStream | memoryOutput => simp [hG, Functor.IsTransform] at hf

omit [DecidableEq ι] in
lemma Functor.IsTransform.holds {f : Functor ι α} (h : f.IsTransform) : f.holdsValue = true := by
  cases f <;> simp_all [Functor.IsTransform, Functor.holdsValue]

variable (N : Network G rank) (hF : Flow G K total c rest) (P : Popped G c c' rest f ok)
  (hbal : Balanced G c' rest') (hf : (G f).IsTransform)
include N hF P hbal hf

omit [DecidableEq ι] N hbal hf in
/-- A concat in `K` that moves past used up inputs only has used up the inputs before its index. -/
lemma Popped.used_up (hready : K f → ∀ w ∈ passed G c f, rest w = []) (hK : K f) {added : List ι}
    (hG : G f = .concat u added) (hw : w ∈ (G f).predecessors.take (c' f).mUpperIndex) :
    rest w = [] := by
  rcases P.skipped ⟨u, added, hG⟩ w hw with h | h
  · have hFf := hF f
    simp only [FlowAt, hG, Functor.predecessors] at hFf h
    exact hFf.1 hK w h
  · exact hready hK w h

lemma Popped.flow (hready : K f → ∀ w ∈ passed G c f, rest w = []) :
    Flow G K (received G c rest' total) c' rest' := by
  have hsub := P.sublist N hF hbal
  have hcell : ∀ v, ¬(G v).IsTransform → c' v = c v ∨ Taken G c c' f v := fun v hv =>
    P.cells v fun he => hv (he ▸ hf)
  intro v
  have hv := hF v
  have hb := hbal v
  unfold FlowAt at hv ⊢
  unfold own passOn at hb
  cases hG : G v with
  | rawData data =>
    simp only [hG, List.append_nil] at hv hb ⊢
    refine ⟨?_, hb⟩
    rcases hcell v (by simp [hG, Functor.IsTransform]) with hc | ⟨-, -, hc⟩ <;> rw [hc]
    · exact hv.1
    · exact ⟨hv.1.1, by simp⟩
  | filter u func =>
    simp only [hG] at hb ⊢
    exact hb
  | concat u added =>
    simp only [hG] at hv hb ⊢
    refine ⟨fun hKv w hw => ?_, hb⟩
    have hnil : rest w = [] := by
      by_cases hvf : v = f
      · subst hvf
        exact P.used_up hF hready hKv hG (by simpa [hG, Functor.predecessors] using hw)
      · have hindex : (c' v).mUpperIndex = (c v).mUpperIndex := by
          rcases P.cells v hvf with hc | ⟨-, -, hc⟩ <;> rw [hc]
        exact hv.1 hKv w (hindex ▸ hw)
    have hs := hsub w
    rw [hnil] at hs
    exact List.sublist_nil.mp hs
  | split u rs =>
    simp only [hG, List.nil_append] at hv hb ⊢
    refine ⟨?_, hb⟩
    rcases hcell v (by simp [hG, Functor.IsTransform]) with hc | ⟨-, -, hc⟩ <;> rw [hc]
    exact hv.1
  | splitStream s =>
    simp only [hG, received] at hv hb ⊢
    obtain ⟨hi, hnext, hlt, htotal, -⟩ := hv
    have hs := hsub s
    have hlen : ((c v).mData ++ rest' s).length < 2 ^ 31 := by
      have hle := hs.length_le
      rw [htotal] at hlt
      simp only [List.length_append] at hlt ⊢
      omega
    rcases hcell v (by simp [hG, Functor.IsTransform]) with hc | ⟨-, hhas, hc⟩ <;> rw [hc] at hb ⊢
    · refine ⟨hi, fun hne => hnext fun hnil => hne ?_, hlen, rfl, hb⟩
      rw [hnil] at hs
      exact List.sublist_nil.mp hs
    · refine ⟨⟨hi.1, by simp⟩, fun _ => ?_, hlen, rfl, hb⟩
      have hlast := hi.2 hhas
      have hcast := castInt_le (c v).mData.length
      simp only [Cell.next, Bool.false_eq_true, if_false]
      omega
  | memoryOutput u =>
    simp only [hG, received, List.nil_append] at hv hb ⊢
    have hout : IsOutput G v := (N.output v).mpr ⟨u, hG⟩
    have hc := (hcell v (by simp [hG, Functor.IsTransform])).resolve_right fun h => hout f h.1
    rw [hc]
    exact ⟨hv.1, rfl, hb⟩

omit [DecidableEq ι] N hF in
lemma Popped.rest_self : rest' f = (if ok then [(c' f).mValue] else []) ++ passOn G c' rest' f := by
  rw [hbal f]
  congr 1
  unfold own
  cases hG : G f with
  | filter u func => simp [Cell.held, P.self]
  | concat u added => simp [Cell.held, P.self]
  | rawData | split | splitStream | memoryOutput => simp [hG, Functor.IsTransform] at hf

/-- What a functor has still to hand on and its empty slot: none of it grows. -/
lemma Popped.progress [Fintype ι] : potential c' rest' < potential c rest ∨
    (ok = false ∧ rest' = rest ∧ ∀ w, (c' w).mHasValue = (c w).mHasValue) := by
  have hsub := P.sublist N hF hbal
  have htaken : ∀ w, Taken G c c' f w → (rest' w).length + 1 = (rest w).length := by
    intro w hw
    obtain ⟨x, -, hx⟩ := rest_taken N hF P.cells hbal hw
    simp [hx]
  have hself : (c f).mHasValue = true → (rest' f).length < (rest f).length := by
    intro hhas
    rw [P.record rest' hbal, lost]
    simp only [Cell.held, hhas, if_true, List.length_append, List.length_singleton]
    omega
  have hle : ∀ w, 2 * (rest' w).length + (if (c' w).mHasValue then 0 else 1) ≤
      2 * (rest w).length + if (c w).mHasValue then 0 else 1 := by
    intro w
    have hlen := (hsub w).length_le
    by_cases hwf : w = f
    · subst hwf
      split_ifs with h' h h
      · omega
      · omega
      · have := hself h
        omega
      · omega
    rcases P.cells w hwf with hc | hw
    · rw [hc]
      omega
    · have := htaken w hw
      split_ifs <;> omega
  by_cases hlt : ∃ w, 2 * (rest' w).length + (if (c' w).mHasValue then 0 else 1) <
      2 * (rest w).length + if (c w).mHasValue then 0 else 1
  · obtain ⟨w, hw⟩ := hlt
    exact Or.inl (Finset.sum_lt_sum (fun w _ => hle w) ⟨w, Finset.mem_univ w, hw⟩)
  right
  simp only [not_exists, not_lt] at hlt
  have hnone : ∀ w, ¬Taken G c c' f w := by
    intro w hw
    have h1 := htaken w hw
    have h2 := hlt w
    split_ifs at h2 <;> omega
  have hsame : ∀ w, (c' w).mHasValue = (c w).mHasValue ∧ (rest w).length ≤ (rest' w).length := by
    intro w
    have h1 := hle w
    have h2 := hlt w
    have h3 := (hsub w).length_le
    cases h : (c w).mHasValue <;> cases h' : (c' w).mHasValue <;> simp only [h, h'] at h1 h2 ⊢ <;>
      simp at h1 h2 ⊢ <;> omega
  refine ⟨?_, ?_, fun w => (hsame w).1⟩
  · by_contra hok
    obtain ⟨w, hw⟩ := P.took (by simpa using hok)
    exact hnone w hw
  · funext w
    exact (hsub w).eq_of_length_le (hsame w).2

theorem Popped.fired [Fintype ι] (hready : K f → ∀ w ∈ passed G c f, rest w = []) :
    Fired G K (received G c rest' total) f ok c c' rest rest' := by
  have hrest := P.rest_self hbal hf
  refine ⟨P.flow N hF hbal hf hready, ?_, by simp [P.self, hf.holds], ?_, ?_,
    P.sublist N hF hbal, ?_, ?_, ?_, ?_, ?_, P.progress N hF hbal hf⟩
  · intro w
    by_cases hwf : w = f
    · rw [hwf, P.status]
    rcases P.cells w hwf with hc | ⟨-, -, hc⟩ <;> rw [hc]
  · intro w hw hwf
    rw [(P.cells w hwf).resolve_right fun h => hw h.1]
  · intro w hw hhas'
    have hhas : (c w).mHasValue = true := by
      rcases P.cells w (N.ne hw) with hc | ⟨-, h, -⟩
      · rw [← hc]
        exact hhas'
      · exact h
    obtain ⟨u, added, hG⟩ := P.emptied w hw hhas'
    refine ⟨hhas, fun hK => ?_, u, added, hG⟩
    by_contra hok
    have hover := P.exhausted (by simpa using hok) ⟨u, added, hG⟩
    have htake : (G f).predecessors.take (c' f).mUpperIndex = (G f).predecessors :=
      List.take_of_length_le (List.drop_eq_nil_iff.mp hover)
    exact (hF w).rest_ne_nil hhas (P.used_up hF hready hK hG (htake.symm ▸ hw))
  · intro r s hr hrf hhas hp
    rw [(P.cells r hrf).resolve_right fun h => by simp [h.2.1] at hhas]
    exact hp
  · intro _ r hr
    have hs := N.stream_split hr
    cases hG : G f <;> simp [hG, Functor.IsTransform, Functor.IsSplit] at hs hf
  · intro _ hs
    cases hG : G f <;> simp [hG, Functor.IsTransform, Functor.IsSource] at hs hf
  · rintro hok - ⟨u, added, hG⟩
    have hover := P.exhausted hok ⟨u, added, hG⟩
    simp only [hG, Functor.predecessors] at hover
    rw [hrest, hok, passOn, hG]
    simp [hover]
  · intro hok hnil
    rw [P.record rest' hbal, hrest, hok] at hnil
    simp at hnil

/-- A call that loses nothing changes no total. -/
lemma Popped.received_eq (hlost : lost G c rest f = []) : received G c rest' total = total := by
  have hinput : ∀ v u, u ∈ (G v).predecessors → ¬(G v).IsTransform → rest' u = rest u := by
    intro v u hu hv
    refine P.rest_eq N hF hbal ?_ le_rfl (by rw [hlost, reaching_nil])
    rintro ⟨hmem, hhas, -⟩
    exact hv ((hF.only_consumer N hhas hmem hu) ▸ hf)
  refine hF.received_eq fun v u h => ?_
  rcases h with h | h <;>
    exact hinput v u (by simp [h, Functor.predecessors]) (by simp [h, Functor.IsTransform])

end Firing

section Ready
variable [DecidableEq ι]

omit [DecidableEq ι] in
lemma lost_nil (hempty : (c f).mHasValue = false) (hpassed : ∀ w ∈ passed G c f, rest w = []) :
    lost G c rest f = [] := by
  simp only [lost, Cell.held, hempty, Bool.false_eq_true, if_false, List.nil_append]
  rw [List.flatten_eq_nil_iff]
  intro l hl
  obtain ⟨w, hw, rfl⟩ := List.mem_map.mp hl
  exact hpassed w hw

theorem fired_transform [Fintype ι] (N : Network G rank) (hF : Flow G K total c rest)
    (hf : (G f).IsTransform) (hempty : (c f).mHasValue = false)
    (hpassed : ∀ w ∈ passed G c f, rest w = []) :
    ∃ ok c₁ rest', process G c f = .ok (ok, c₁) ∧
      Fired G K total f ok c (settle G ok c₁ f) rest rest' := by
  obtain ⟨ok, c₁, hprocess, P⟩ := popped N hF hf
  obtain ⟨rest', hbal⟩ := exists_balanced N (settle G ok c₁ f)
  have hfired := P.fired N hF hbal hf fun _ => hpassed
  rw [P.received_eq N hF hbal hf (lost_nil hempty hpassed)] at hfired
  exact ⟨ok, c₁, rest', hprocess, hfired⟩

/-- A call of `process` on a functor whose inputs are ready. -/
theorem process_fired [Fintype ι] (N : Network G rank) (hF : Flow G K total c rest)
    (hempty : (c f).mHasValue = false) (hpassed : ∀ w ∈ passed G c f, rest w = [])
    (hstream : ∀ s, G f = .splitStream s → (c f).pending ≠ [] ∨ rest s = []) :
    ∃ ok c₁ rest', process G c f = .ok (ok, c₁) ∧
      Fired G K total f ok c (settle G ok c₁ f) rest rest' := by
  cases hG : G f with
  | rawData xs =>
    have hs : (G f).IsSource := by simp [hG, Functor.IsSource]
    exact ⟨_, _, rest, process_source hs, fired_source N hF hs hempty hstream⟩
  | splitStream s =>
    have hs : (G f).IsSource := by simp [hG, Functor.IsSource]
    exact ⟨_, _, rest, process_source hs, fired_source N hF hs hempty hstream⟩
  | filter u func =>
    exact fired_transform N hF (by simp [hG, Functor.IsTransform]) hempty hpassed
  | concat u added =>
    exact fired_transform N hF (by simp [hG, Functor.IsTransform]) hempty hpassed
  | split u rs => exact fired_split N hF hG
  | memoryOutput u => exact fired_memoryOutput N hF hG

end Ready

end PrivacyComputing.Hpda
