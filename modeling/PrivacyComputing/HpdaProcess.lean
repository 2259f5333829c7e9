import Mathlib.Algebra.Order.BigOperators.Group.Finset
import Mathlib.Data.List.TakeWhile
import PrivacyComputing.HpdaNetwork

/-! One call of `process`, with the update of the slot that `engine::run` makes after it. -/
namespace PrivacyComputing.Hpda

variable {ι α : Type*} [DecidableEq ι] {G : ι → Functor ι α} {rank : ι → ℕ} {K : ι → Prop}
  {total : ι → List α} {c c' : ι → Cell α} {rest rest' : ι → List α} {v w : ι}

/-- What `engine::run` does with the answer of `process`. -/
def settle (G : ι → Functor ι α) (ok : Bool) (c : ι → Cell α) (v : ι) : ι → Cell α :=
  if ok then doneValue G c v else resetDoneValue c v

lemma resetDoneValue_eq_self (h : (c v).mHasValue = false) : resetDoneValue c v = c := by
  funext w
  by_cases hw : w = v
  · subst hw
    simp [resetDoneValue, setHasValue, ← h]
  · simp [resetDoneValue, setHasValue, modify_ne c _ hw]

lemma doneValue_of_holds (h : (G v).holdsValue = true) :
    doneValue G c v = setHasValue c v true := by
  unfold doneValue
  cases hG : G v <;> simp_all [Functor.holdsValue]

lemma doneValue_of_not_holds (h : (G v).holdsValue = false) :
    doneValue G c v = setHasValue c v false := by
  unfold doneValue
  cases hG : G v <;> simp_all [Functor.holdsValue]

section Potential
variable [Fintype ι]

/-- It falls with every record that is handed on and with every slot that is filled. -/
def potential (c : ι → Cell α) (rest : ι → List α) : ℕ :=
  ∑ w, (2 * (rest w).length + if (c w).mHasValue then 0 else 1)

lemma potential_lt_of_take (hw : (rest' w).length + 1 = (rest w).length)
    (hr : ∀ x, (rest' x).length ≤ (rest x).length)
    (hh : ∀ x, x ≠ w → (c x).mHasValue = true → (c' x).mHasValue = true) :
    potential c' rest' < potential c rest := by
  apply Finset.sum_lt_sum
  · intro x _
    by_cases hx : x = w
    · subst hx
      split_ifs <;> omega
    · have hl := hr x
      have hm := hh x hx
      split_ifs with h1 h2 h2
      · omega
      · omega
      · exact absurd (hm h2) h1
      · omega
  · refine ⟨w, Finset.mem_univ w, ?_⟩
    split_ifs <;> omega

lemma potential_lt_of_fill (hv : (c v).mHasValue = false) (hv' : (c' v).mHasValue = true)
    (hh : ∀ x, x ≠ v → (c' x).mHasValue = (c x).mHasValue) :
    potential c' rest < potential c rest := by
  apply Finset.sum_lt_sum
  · intro x _
    by_cases hx : x = v
    · subst hx
      simp [hv, hv']
    · rw [hh x hx]
  · exact ⟨v, Finset.mem_univ v, by simp [hv, hv']⟩

end Potential

/-- What one call of `process` and the update of the slot after it do. -/
structure Fired [Fintype ι] (G : ι → Functor ι α) (K : ι → Prop) (total : ι → List α) (v : ι)
    (ok : Bool) (c c' : ι → Cell α) (rest rest' : ι → List α) : Prop where
  flow : Flow G K total c' rest'
  status : ∀ w, (c' w).mStatus = (c w).mStatus
  self : (c' v).mHasValue = (ok && (G v).holdsValue)
  other : ∀ w, w ∉ (G v).predecessors → w ≠ v → (c' w).mHasValue = (c w).mHasValue
  input : ∀ w ∈ (G v).predecessors, (c' w).mHasValue = true →
    (c w).mHasValue = true ∧ (K v → ok = true) ∧ ∃ u added, G v = .concat u added
  sublist : ∀ w, (rest' w).Sublist (rest w)
  pending : ∀ r s, G r = .splitStream s → r ≠ v → (c r).mHasValue = false → (c r).pending ≠ [] →
    (c' r).pending ≠ []
  fill : ok = true → ∀ r, G r = .splitStream v → (c' r).pending ≠ []
  drained : ok = false → (G v).IsSource → (c' v).pending = []
  exhausted : ok = false → ¬K v → (∃ u added, G v = .concat u added) → rest' v = []
  ready : ok = true → rest v ≠ []
  progress : potential c' rest' < potential c rest ∨
    (ok = false ∧ rest' = rest ∧ ∀ w, (c' w).mHasValue = (c w).mHasValue)

/-- The call of a functor whose only input has no value. -/
lemma fired_idle [Fintype ι] (hF : Flow G K total c rest) (hv : (c v).mHasValue = false) {u : ι}
    (hp : (G v).predecessors = [u]) (hu : (c u).mHasValue = false) (hs : ¬(G v).IsSource)
    (hconcat : ¬∃ u added, G v = .concat u added) :
    Fired G K total v false c (settle G false c v) rest rest := by
  have hc : settle G false c v = c := by simp [settle, resetDoneValue_eq_self hv]
  rw [hc]
  refine ⟨hF, fun _ => rfl, by simpa using hv, fun _ _ _ => rfl, ?_,
    fun _ => List.Sublist.refl _, fun _ _ _ _ _ h => h, by simp, ?_, ?_, by simp,
    Or.inr ⟨rfl, rfl, fun _ => rfl⟩⟩
  · intro w hw ht
    rw [hp, List.mem_singleton] at hw
    rw [hw, hu] at ht
    exact absurd ht (by simp)
  · intro _ h
    exact absurd h hs
  · intro _ _ h
    exact absurd h hconcat

section Sources

omit [DecidableEq ι] in
lemma Functor.IsSource.holds {f : Functor ι α} (h : f.IsSource) : f.holdsValue = true := by
  cases f <;> simp_all [Functor.IsSource, Functor.holdsValue]

omit [DecidableEq ι] in
lemma FlowAt.indexed (h : FlowAt G K total c rest v) (hs : (G v).IsSource) : (c v).Indexed := by
  unfold FlowAt at h
  cases hG : G v with
  | rawData xs =>
    simp only [hG] at h
    exact h.1
  | splitStream s =>
    simp only [hG] at h
    exact h.1
  | filter | concat | split | memoryOutput => simp [hG, Functor.IsSource] at hs

omit [DecidableEq ι] in
lemma Flow.source_input (hF : Flow G K total c rest) (N : Network G rank) (hs : (G v).IsSource)
    (hw : w ∈ (G v).predecessors) : (c w).mHasValue = false := by
  cases hG : G v with
  | rawData xs => simp [hG, Functor.predecessors] at hw
  | splitStream s =>
    simp only [hG, Functor.predecessors, List.mem_singleton] at hw
    rw [hw]
    exact hF.split_empty (N.stream_split hG)
  | filter | concat | split | memoryOutput => simp [hG, Functor.IsSource] at hs

lemma process_source (hs : (G v).IsSource) :
    process G c v = .ok ((c v).rawProcess.1, modify c v (·.rawProcess.2)) := by
  unfold process
  cases hG : G v with
  | rawData xs => rfl
  | splitStream s => rfl
  | filter | concat | split | memoryOutput => simp [hG, Functor.IsSource] at hs

lemma Flow.modify (hF : Flow G K total c rest) (hc : ∀ x, x ≠ v → c' x = c x)
    (hv : FlowAt G K total c' rest v) : Flow G K total c' rest := by
  intro x
  by_cases hx : x = v
  · rw [hx]
    exact hv
  · exact (hF x).frame (hc x hx) rfl fun _ _ => rfl

omit [DecidableEq ι] in
@[simp] lemma rawProcess_mData (cell : Cell α) : cell.rawProcess.2.mData = cell.mData := by
  unfold Cell.rawProcess
  split_ifs <;> rfl

omit [DecidableEq ι] in
@[simp] lemma rawProcess_mStatus (cell : Cell α) : cell.rawProcess.2.mStatus = cell.mStatus := by
  unfold Cell.rawProcess
  split_ifs <;> rfl

omit [DecidableEq ι] in
@[simp] lemma rawProcess_mHasValue (cell : Cell α) :
    cell.rawProcess.2.mHasValue = cell.mHasValue := by
  unfold Cell.rawProcess
  split_ifs <;> rfl

omit [DecidableEq ι] in
lemma next_rawProcess {cell : Cell α} (hv : cell.mHasValue = false)
    (h : cell.rawProcess.1 = true) :
    ({ cell.rawProcess.2 with mHasValue := true } : Cell α).next = cell.next := by
  unfold Cell.rawProcess at h ⊢
  split_ifs at h ⊢
  simp [Cell.next, hv]

omit [DecidableEq ι] in
lemma FlowAt.source_true (h : FlowAt G K total c rest v) (hs : (G v).IsSource)
    (hv : (c v).mHasValue = false) (hok : (c v).rawProcess.1 = true)
    (hc : c' v = { (c v).rawProcess.2 with mHasValue := true }) :
    FlowAt G K total c' rest v ∧ rest v ≠ [] := by
  obtain ⟨hi, hp, hne⟩ := Cell.rawProcess_true (h.indexed hs) hv hok
  unfold FlowAt at h ⊢
  cases hG : G v with
  | rawData xs =>
    simp only [hG] at h ⊢
    rw [hc, hp, h.2]
    exact ⟨⟨hi, rfl⟩, hne⟩
  | splitStream s =>
    simp only [hG] at h ⊢
    obtain ⟨-, hnext, hlt, htotal, hrest⟩ := h
    rw [hc, hp, next_rawProcess hv hok, hrest]
    refine ⟨⟨hi, ?_, hlt, ?_, rfl⟩, ?_⟩
    · simpa using hnext
    · simpa using htotal
    · simp [hne]
  | filter | concat | split | memoryOutput => simp [hG, Functor.IsSource] at hs

omit [DecidableEq ι] in
lemma FlowAt.source_false (h : FlowAt G K total c rest v) (hs : (G v).IsSource)
    (hv : (c v).mHasValue = false) (hok : (c v).rawProcess.1 = false)
    (hready : ∀ s, G v = .splitStream s → (c v).pending ≠ [] ∨ rest s = [])
    (hc : c' v = (c v).rawProcess.2) : FlowAt G K total c' rest v ∧ (c' v).pending = [] := by
  obtain ⟨hp, hi, hp'⟩ := Cell.rawProcess_false (h.indexed hs) hv hok
  unfold FlowAt at h ⊢
  cases hG : G v with
  | rawData xs =>
    simp only [hG] at h ⊢
    rw [hc, hp', h.2, hp]
    exact ⟨⟨hi, rfl⟩, rfl⟩
  | splitStream s =>
    simp only [hG] at h ⊢
    obtain ⟨-, -, hlt, htotal, hrest⟩ := h
    have hnil : rest s = [] := (hready s hG).resolve_left fun hne => hne hp
    rw [hc, hp', hrest, hp, hnil]
    refine ⟨⟨hi, by simp, hlt, ?_, rfl⟩, rfl⟩
    simpa [hnil] using htotal
  | filter | concat | split | memoryOutput => simp [hG, Functor.IsSource] at hs

theorem fired_source [Fintype ι] (N : Network G rank) (hF : Flow G K total c rest)
    (hs : (G v).IsSource) (hv : (c v).mHasValue = false)
    (hready : ∀ s, G v = .splitStream s → (c v).pending ≠ [] ∨ rest s = []) :
    Fired G K total v (c v).rawProcess.1 c
      (settle G (c v).rawProcess.1 (modify c v (·.rawProcess.2)) v) rest rest := by
  have hne : ∀ x, x ≠ v →
      settle G (c v).rawProcess.1 (modify c v (·.rawProcess.2)) v x = c x := by
    intro x hx
    unfold settle
    split_ifs
    · rw [doneValue_of_holds hs.holds, setHasValue, modify_ne _ _ hx, modify_ne _ _ hx]
    · rw [resetDoneValue, setHasValue, modify_ne _ _ hx, modify_ne _ _ hx]
  have hinput : ∀ w ∈ (G v).predecessors, (c w).mHasValue = false :=
    fun w hw => hF.source_input N hs hw
  have hconcat : ¬∃ u added, G v = .concat u added := by
    rintro ⟨u, added, hG⟩
    simp [hG, Functor.IsSource] at hs
  have hsplit : ∀ r, G r = .splitStream v → False := by
    intro r hr
    have h := N.stream_split hr
    cases hG : G v <;> simp [hG, Functor.IsSource, Functor.IsSplit] at hs h
  cases hok : (c v).rawProcess.1 with
  | true =>
    rw [hok] at hne
    have hself : settle G true (modify c v (·.rawProcess.2)) v v =
        { (c v).rawProcess.2 with mHasValue := true } := by
      simp [settle, doneValue_of_holds hs.holds, setHasValue]
    obtain ⟨hflow, hnil⟩ := (hF v).source_true hs hv hok hself
    refine ⟨hF.modify hne hflow, ?_, ?_, ?_, ?_, fun _ => List.Sublist.refl _, ?_, ?_, by simp,
      by simp, fun _ => hnil, Or.inl ?_⟩
    · intro w
      by_cases hw : w = v
      · rw [hw, hself]
        simp
      · rw [hne w hw]
    · simp [hself, hs.holds]
    · intro w _ hw
      rw [hne w hw]
    · intro w hw ht
      rw [hne w (N.ne hw), hinput w hw] at ht
      exact absurd ht (by simp)
    · intro r s _ hr _ hp
      rw [hne r hr]
      exact hp
    · intro _ r hr
      exact (hsplit r hr).elim
    · apply potential_lt_of_fill hv (by rw [hself])
      intro x hx
      rw [hne x hx]
  | false =>
    rw [hok] at hne
    have hself : settle G false (modify c v (·.rawProcess.2)) v v = (c v).rawProcess.2 := by
      simp only [settle, Bool.false_eq_true, if_false]
      rw [resetDoneValue_eq_self (by simp [hv])]
      simp
    obtain ⟨hflow, hnil⟩ := (hF v).source_false hs hv hok hready hself
    refine ⟨hF.modify hne hflow, ?_, ?_, ?_, ?_, fun _ => List.Sublist.refl _, ?_, by simp,
      fun _ _ => hnil, fun _ _ h => absurd h hconcat, by simp, Or.inr ⟨rfl, rfl, ?_⟩⟩
    · intro w
      by_cases hw : w = v
      · rw [hw, hself]
        simp
      · rw [hne w hw]
    · simp [hself, hv]
    · intro w _ hw
      rw [hne w hw]
    · intro w hw ht
      rw [hne w (N.ne hw), hinput w hw] at ht
      exact absurd ht (by simp)
    · intro r s _ hr _ hp
      rw [hne r hr]
      exact hp
    · intro w
      by_cases hw : w = v
      · rw [hw, hself]
        simp
      · rw [hne w hw]

end Sources

section Takers

/-- Functor `v`, which holds no value itself, has taken the value of its input `w`. -/
lemma fired_take [Fintype ι] (N : Network G rank) (hF : Flow G K total c rest)
    (hpred : (G v).predecessors = [w]) (hholds : (G v).holdsValue = false)
    (hw : (c w).mHasValue = true) {x : α} {tail : List α} (hrest : rest w = x :: tail)
    (htake : ∀ c' rest', c' w = { c w with mHasValue := false } → rest' w = tail →
      (∀ u ∈ (G w).predecessors, rest' u = rest u) → FlowAt G K total c' rest' w)
    (hrv : rest v = rest w) (hr : rest' = Function.update (Function.update rest v tail) w tail)
    (hcw : c' w = { c w with mHasValue := false }) (hself : (c' v).mHasValue = false)
    (hstatus : ∀ y, (c' y).mStatus = (c y).mStatus)
    (hother : ∀ y, y ≠ v → y ≠ w → (c' y).mHasValue = (c y).mHasValue)
    (hflow : FlowAt G K total c' rest' v)
    (hframe : ∀ y, y ≠ w → y ≠ v → FlowAt G K total c' rest' y ∨
      (c' y = c y ∧ (v ∈ (G y).predecessors → rest' v = rest v)))
    (hpending : ∀ r s, G r = .splitStream s → r ≠ v → r ≠ w → (c r).pending ≠ [] →
      (c' r).pending ≠ [])
    (hfill : ∀ r, G r = .splitStream v → (c' r).pending ≠ []) :
    Fired G K total v true c c' rest rest' := by
  have hwv : w ∈ (G v).predecessors := by simp [hpred]
  have hne : w ≠ v := N.ne hwv
  have hv : (c v).mHasValue = false := by
    by_contra h
    have hh := (hF v).holds (by simpa using h)
    rw [hholds] at hh
    exact absurd hh (by simp)
  have hr' : ∀ y, y ≠ w → y ≠ v → rest' y = rest y := by
    intro y hyw hyv
    simp [hr, hyw, hyv]
  have hrw : rest' w = tail := by simp [hr]
  have hsublist : ∀ y, (rest' y).Sublist (rest y) := by
    intro y
    by_cases hyw : y = w
    · rw [hyw, hrw, hrest]
      exact List.sublist_cons_self x tail
    by_cases hyv : y = v
    · have hy : rest' v = tail := by simp [hr, Ne.symm hne]
      rw [hyv, hy, hrv, hrest]
      exact List.sublist_cons_self x tail
    rw [hr' y hyw hyv]
  refine ⟨hF.take N hwv hw htake hcw hrw hr' hflow hframe, hstatus, by simp [hself, hholds], ?_,
    ?_, hsublist, ?_, fun _ => hfill, by simp, by simp, ?_, Or.inl ?_⟩
  · intro y hy hyv
    apply hother y hyv
    intro hyw
    exact hy (hyw ▸ hwv)
  · intro y hy hyt
    rw [hpred, List.mem_singleton] at hy
    rw [hy, hcw] at hyt
    exact absurd hyt (by simp)
  · intro r s hr hrv hhas hp
    apply hpending r s hr hrv _ hp
    intro hrw
    rw [hrw, hw] at hhas
    exact absurd hhas (by simp)
  · intro _
    simp [hrv, hrest]
  · apply potential_lt_of_take (w := w)
    · simp [hrw, hrest]
    · intro y
      exact (hsublist y).length_le
    · intro y hyw hy
      by_cases hyv : y = v
      · rw [hyv, hv] at hy
        exact absurd hy (by simp)
      · rw [hother y hyv hyw]
        exact hy

theorem fired_memoryOutput [Fintype ι] (N : Network G rank) (hF : Flow G K total c rest) {u : ι}
    (hG : G v = .memoryOutput u) :
    ∃ ok c₁ rest', process G c v = .ok (ok, c₁) ∧
      Fired G K total v ok c (settle G ok c₁ v) rest rest' := by
  have huv : u ∈ (G v).predecessors := by simp [hG, Functor.predecessors]
  have hne : u ≠ v := N.ne huv
  have hholds : (G v).holdsValue = false := by simp [hG, Functor.holdsValue]
  have hFv := hF v
  simp only [FlowAt, hG] at hFv
  obtain ⟨hv, htotal, hrv⟩ := hFv
  cases hu : (c u).mHasValue with
  | false =>
    exact ⟨false, c, rest, by simp [process, hG, hu],
      fired_idle hF hv (by rw [hG, Functor.predecessors]) hu
        (by simp [hG, Functor.IsSource]) (by simp [hG])⟩
  | true =>
    obtain ⟨x, tail, hx, hrest, htake⟩ := (hF u).take hu
    have hcells : settle G true (resetDoneValue (addData c v x) u) v =
        resetDoneValue (addData c v x) u := by
      simp only [settle, if_true, doneValue_of_not_holds hholds]
      apply resetDoneValue_eq_self
      rw [resetDoneValue, setHasValue, modify_ne _ _ (Ne.symm hne), addData]
      simpa using hv
    have hself : resetDoneValue (addData c v x) u v =
        { c v with mData := (c v).mData ++ [x] } := by
      rw [resetDoneValue, setHasValue, modify_ne _ _ (Ne.symm hne), addData, modify_self]
    have hinput : resetDoneValue (addData c v x) u u = { c u with mHasValue := false } := by
      rw [resetDoneValue, setHasValue, modify_self, addData, modify_ne _ _ hne]
    have hother : ∀ y, y ≠ v → y ≠ u → resetDoneValue (addData c v x) u y = c y := by
      intro y hyv hyu
      rw [resetDoneValue, setHasValue, modify_ne _ _ hyu, addData, modify_ne _ _ hyv]
    refine ⟨true, resetDoneValue (addData c v x) u,
      Function.update (Function.update rest v tail) u tail, by simp [process, hG, hu, hx], ?_⟩
    rw [hcells]
    refine fired_take N hF (by rw [hG, Functor.predecessors]) hholds hu hrest htake hrv rfl hinput
      (by rw [hself, hv]) ?_ ?_ ?_ ?_ ?_ ?_
    · intro y
      by_cases hyv : y = v
      · rw [hyv, hself]
      by_cases hyu : y = u
      · rw [hyu, hinput]
      rw [hother y hyv hyu]
    · intro y hyv hyu
      rw [hother y hyv hyu]
    · simp only [FlowAt, hG, hself]
      simp [hv, htotal, hrest, Ne.symm hne]
    · intro y hyu hyv
      exact Or.inr ⟨hother y hyv hyu, fun hmem => absurd hmem ((N.output v).mpr ⟨u, hG⟩ y)⟩
    · intro r s _ hrv hru hp
      rw [hother r hrv hru]
      exact hp
    · intro r hr
      have hs := N.stream_split hr
      simp [hG, Functor.IsSplit] at hs

lemma foldl_addData (x : α) (rs : List ι) (hrs : rs.Nodup) (c : ι → Cell α) (y : ι) :
    rs.foldl (fun c r => addData c r x) c y =
      if y ∈ rs then { c y with mData := (c y).mData ++ [x] } else c y := by
  induction rs generalizing c with
  | nil => simp
  | cons r rs ih =>
    rw [List.foldl_cons, ih (List.nodup_cons.mp hrs).2]
    have hr := (List.nodup_cons.mp hrs).1
    by_cases hy : y = r
    · subst hy
      simp [hr, addData]
    · simp [hy, addData, modify_ne _ _ hy]

omit [DecidableEq ι] in
/-- The stream of a split after the split has added a record. -/
lemma FlowAt.stream_add {s r : ι} {x : α} {tail : List α} (h : FlowAt G K total c rest r)
    (hG : G r = .splitStream s) (hrest : rest s = x :: tail)
    (hc : c' r = { c r with mData := (c r).mData ++ [x] }) (hr : rest' r = rest r)
    (hs : rest' s = tail) : FlowAt G K total c' rest' r ∧ (c' r).pending ≠ [] := by
  simp only [FlowAt, hG] at h ⊢
  obtain ⟨hi, hnext, hlt, htotal, hrr⟩ := h
  have hn := hnext (by simp [hrest])
  have hlen := congrArg List.length htotal
  simp only [List.length_append, hrest, List.length_cons] at hlen
  have hcast : castInt (c r).mData.length = (c r).mData.length := castInt_of_lt (by omega)
  have hcast' : castInt ((c r).mData.length + 1) = ((c r).mData.length + 1 : ℕ) :=
    castInt_of_lt (by omega)
  have hp : ({ c r with mData := (c r).mData ++ [x] } : Cell α).pending = (c r).pending ++ [x] :=
    Cell.pending_append (by omega) x hn
  rw [hc, hr, hs, hp, hrr]
  refine ⟨⟨⟨hi.1, ?_⟩, ?_, hlt, by simp [htotal, hrest], by simp [hrest]⟩, by simp⟩
  · intro ht
    have hb := hi.2 ht
    simp only [List.length_append, List.length_singleton, hcast']
    push_cast
    omega
  · intro _
    simp only [Cell.next, List.length_append, List.length_singleton] at hn ⊢
    omega

theorem fired_split [Fintype ι] (N : Network G rank) (hF : Flow G K total c rest) {u : ι}
    {rs : List ι} (hG : G v = .split u rs) :
    ∃ ok c₁ rest', process G c v = .ok (ok, c₁) ∧
      Fired G K total v ok c (settle G ok c₁ v) rest rest' := by
  have huv : u ∈ (G v).predecessors := by simp [hG, Functor.predecessors]
  have hne : u ≠ v := N.ne huv
  have hholds : (G v).holdsValue = false := by simp [hG, Functor.holdsValue]
  have hFv := hF v
  simp only [FlowAt, hG] at hFv
  obtain ⟨hv, hrv⟩ := hFv
  obtain ⟨hnodup, hstreams⟩ := N.streams hG
  have hvrs : v ∉ rs := by
    intro h
    rw [hstreams, hG] at h
    exact absurd h (by simp)
  have hurs : u ∉ rs := by
    intro h
    rw [hstreams] at h
    have h1 := N.rank_lt (f := u) (c := v) (by simp [h, Functor.predecessors])
    have h2 := N.rank_lt huv
    omega
  cases hu : (c u).mHasValue with
  | false =>
    exact ⟨false, c, rest, by simp [process, hG, hu],
      fired_idle hF hv (by rw [hG, Functor.predecessors]) hu
        (by simp [hG, Functor.IsSource]) (by simp [hG])⟩
  | true =>
    obtain ⟨x, tail, hx, hrest, htake⟩ := (hF u).take hu
    have hcell := foldl_addData x rs hnodup c
    refine ⟨true, resetDoneValue (rs.foldl (fun c r => addData c r x) c) u,
      Function.update (Function.update rest v tail) u tail, by simp [process, hG, hu, hx], ?_⟩
    generalize rs.foldl (fun c r => addData c r x) c = filled at *
    have hself : resetDoneValue filled u v = c v := by
      rw [resetDoneValue, setHasValue, modify_ne _ _ (Ne.symm hne), hcell, if_neg hvrs]
    have hcells : settle G true (resetDoneValue filled u) v = resetDoneValue filled u := by
      simp only [settle, if_true, doneValue_of_not_holds hholds]
      apply resetDoneValue_eq_self
      rw [hself, hv]
    have hinput : resetDoneValue filled u u = { c u with mHasValue := false } := by
      rw [resetDoneValue, setHasValue, modify_self, hcell, if_neg hurs]
    have hother : ∀ y, y ≠ u → resetDoneValue filled u y =
        if y ∈ rs then { c y with mData := (c y).mData ++ [x] } else c y := by
      intro y hyu
      rw [resetDoneValue, setHasValue, modify_ne _ _ hyu, hcell]
    have hadd : ∀ r, G r = .splitStream v →
        FlowAt G K total (resetDoneValue filled u)
          (Function.update (Function.update rest v tail) u tail) r ∧
        (resetDoneValue filled u r).pending ≠ [] := by
      intro r hr
      have hmem : r ∈ rs := (hstreams r).mpr hr
      have hru : r ≠ u := fun he => hurs (he ▸ hmem)
      have hrv' : r ≠ v := fun he => hvrs (he ▸ hmem)
      apply (hF r).stream_add hr (hrv.trans hrest)
      · rw [hother r hru, if_pos hmem]
      · simp [hru, hrv']
      · simp [Ne.symm hne]
    rw [hcells]
    refine fired_take N hF (by rw [hG, Functor.predecessors]) hholds hu hrest htake hrv rfl hinput
      (by rw [hself, hv]) ?_ ?_ ?_ ?_ ?_ ?_
    · intro y
      by_cases hyu : y = u
      · rw [hyu, hinput]
      rw [hother y hyu]
      split_ifs <;> rfl
    · intro y _ hyu
      rw [hother y hyu]
      split_ifs <;> rfl
    · simp only [FlowAt, hG, hself]
      simp [hv, Ne.symm hne]
    · intro y hyu hyv
      by_cases hy : G y = .splitStream v
      · exact Or.inl (hadd y hy).1
      · have hyrs : y ∉ rs := fun h => hy ((hstreams y).mp h)
        refine Or.inr ⟨by rw [hother y hyu, if_neg hyrs], fun hmem => ?_⟩
        exact absurd (N.split_consumer (by simp [hG, Functor.IsSplit]) hmem) hy
    · intro r s hr _ hru hp
      by_cases hrs : G r = .splitStream v
      · exact (hadd r hrs).2
      · have hyrs : r ∉ rs := fun h => hrs ((hstreams r).mp h)
        rw [hother r hru, if_neg hyrs]
        exact hp
    · intro r hr
      exact (hadd r hr).2

end Takers

end PrivacyComputing.Hpda
