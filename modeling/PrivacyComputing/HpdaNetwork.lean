import PrivacyComputing.HpdaEngine

/-! What the functors of a network still hand on: `rest v` is the list of records that functor
`v` has not given to its consumer, the one in its slot included. Every call of `process` that
finds its inputs ready keeps the equations between these lists. -/
namespace PrivacyComputing.Hpda

variable {ι α : Type*}

def Functor.IsSplit : Functor ι α → Prop
  | .split _ _ => True
  | _ => False

def Functor.IsSource : Functor ι α → Prop
  | .rawData _ => True
  | .splitStream _ => True
  | _ => False

/-- Split and memory_output have no `output_value`. -/
def Functor.holdsValue : Functor ι α → Bool
  | .split _ _ => false
  | .memoryOutput _ => false
  | _ => true

/-- The graphs of the engine: without cycles, every functor but a split with one consumer, the
consumers of a split its streams, the functors without a consumer the memory_outputs. -/
structure Network (G : ι → Functor ι α) (rank : ι → ℕ) : Prop where
  nodup : ∀ v, (G v).predecessors.Nodup
  rank_lt : ∀ {f c}, c ∈ (G f).predecessors → rank c < rank f
  consumer : ∀ {c f g}, c ∈ (G f).predecessors → c ∈ (G g).predecessors → f = g ∨ (G c).IsSplit
  streams : ∀ {s u rs}, G s = .split u rs → rs.Nodup ∧ ∀ r, r ∈ rs ↔ G r = .splitStream s
  split_consumer : ∀ {c f}, (G c).IsSplit → c ∈ (G f).predecessors → G f = .splitStream c
  stream_split : ∀ {r s}, G r = .splitStream s → (G s).IsSplit
  output : ∀ v, IsOutput G v ↔ ∃ u, G v = .memoryOutput u

lemma Network.ne {G : ι → Functor ι α} {rank : ι → ℕ} (N : Network G rank) {f c : ι}
    (h : c ∈ (G f).predecessors) : c ≠ f := by
  intro he
  have hr := N.rank_lt h
  rw [he] at hr
  exact lt_irrefl _ hr

section Casting

lemma castInt_le (n : ℕ) : castInt n ≤ n := by
  unfold castInt
  rw [Int.bmod_def]
  split_ifs <;> omega

lemma castInt_of_lt {n : ℕ} (h : n < 2 ^ 31) : castInt n = n := by
  unfold castInt
  rw [Int.bmod_def]
  split_ifs <;> omega

end Casting

section RawCells

/-- How many records of the source were handed on, or are no longer to be. -/
def Cell.next (cell : Cell α) : ℕ := (cell.mIndex + if cell.mHasValue then 0 else 1).toNat

/-- The records of a source that are still to be read, the one in the slot included. -/
def Cell.pending (cell : Cell α) : List α :=
  (cell.mData.take (castInt cell.mData.length).toNat).drop cell.next

def Cell.Indexed (cell : Cell α) : Prop :=
  -1 ≤ cell.mIndex ∧
    (cell.mHasValue = true → 0 ≤ cell.mIndex ∧ cell.mIndex < castInt cell.mData.length)

variable {cell : Cell α}

lemma Cell.pending_eq_nil (h : castInt cell.mData.length ≤ cell.next) : cell.pending = [] := by
  unfold Cell.pending
  apply List.drop_eq_nil_of_le
  simp only [List.length_take]
  omega

lemma Cell.rawProcess_false (hi : cell.Indexed) (hv : cell.mHasValue = false)
    (h : cell.rawProcess.1 = false) :
    cell.pending = [] ∧ cell.rawProcess.2.Indexed ∧ cell.rawProcess.2.pending = [] := by
  unfold Cell.rawProcess at h ⊢
  split_ifs at h ⊢ with he
  · have hd : cell.mData = [] := List.isEmpty_iff.mp he
    have hp : cell.pending = [] := by simp [Cell.pending, hd]
    exact ⟨hp, hi, hp⟩
  · simp only [decide_eq_false_iff_not, not_lt] at h
    have h0 := hi.1
    refine ⟨?_, ⟨?_, ?_⟩, ?_⟩
    · apply Cell.pending_eq_nil
      simp only [Cell.next, hv, Bool.false_eq_true, if_false]
      omega
    · simp only
      omega
    · intro ht
      simp [hv] at ht
    · apply Cell.pending_eq_nil
      simp only [Cell.next, hv, Bool.false_eq_true, if_false]
      omega

lemma Cell.rawProcess_true (hi : cell.Indexed) (hv : cell.mHasValue = false)
    (h : cell.rawProcess.1 = true) :
    ({ cell.rawProcess.2 with mHasValue := true } : Cell α).Indexed ∧
      ({ cell.rawProcess.2 with mHasValue := true } : Cell α).pending = cell.pending ∧
      cell.pending ≠ [] := by
  unfold Cell.rawProcess at h ⊢
  split_ifs at h ⊢ with he
  · simp only [decide_eq_true_eq] at h
    have h0 := hi.1
    have hc := castInt_le cell.mData.length
    refine ⟨⟨?_, ?_⟩, ?_, ?_⟩
    · simp only
      omega
    · intro _
      simp only
      omega
    · simp [Cell.pending, Cell.next, hv]
    · intro hp
      unfold Cell.pending at hp
      have hl := congrArg List.length hp
      simp only [List.length_drop, List.length_take, Cell.next, hv, Bool.false_eq_true, if_false,
        List.length_nil] at hl
      omega

lemma Cell.rawValue_ok (hi : cell.Indexed) (hv : cell.mHasValue = true) :
    ∃ x, cell.rawValue = .ok x ∧ ({ cell with mHasValue := false } : Cell α).Indexed ∧
      cell.pending = x :: ({ cell with mHasValue := false } : Cell α).pending := by
  obtain ⟨h0, h1⟩ := hi.2 hv
  have hc := castInt_le cell.mData.length
  have hlt : cell.mIndex.toNat < cell.mData.length := by omega
  refine ⟨cell.mData[cell.mIndex.toNat], ?_, ⟨hi.1, by simp⟩, ?_⟩
  · unfold Cell.rawValue
    rw [if_neg (by omega), List.getElem?_eq_getElem hlt]
  · have hn : cell.next = cell.mIndex.toNat := by simp [Cell.next, hv]
    have hn' : ({ cell with mHasValue := false } : Cell α).next = cell.mIndex.toNat + 1 := by
      simp only [Cell.next, Bool.false_eq_true, if_false]
      omega
    unfold Cell.pending
    rw [hn, hn']
    simp only
    have hl : cell.mIndex.toNat < (cell.mData.take (castInt cell.mData.length).toNat).length := by
      simp only [List.length_take]
      omega
    rw [List.drop_eq_getElem_cons hl, List.getElem_take]

/-- With fewer than `2 ^ 31` records nothing is cut off. -/
lemma Cell.pending_append (h : cell.mData.length + 1 < 2 ^ 31) (x : α)
    (hn : cell.next ≤ cell.mData.length) :
    ({ cell with mData := cell.mData ++ [x] } : Cell α).pending = cell.pending ++ [x] := by
  have hnext : ({ cell with mData := cell.mData ++ [x] } : Cell α).next = cell.next := rfl
  unfold Cell.pending
  rw [hnext]
  simp only [List.length_append, List.length_singleton]
  rw [castInt_of_lt h, castInt_of_lt (by omega), Int.toNat_natCast, Int.toNat_natCast,
    List.take_of_length_le (by simp), List.take_of_length_le le_rfl,
    List.drop_append_of_le_length hn]

end RawCells

section Cells
variable [DecidableEq ι] (c : ι → Cell α) (v w : ι)

@[simp] lemma modify_self (change : Cell α → Cell α) : modify c v change v = change (c v) := by
  simp [modify]

lemma modify_ne (change : Cell α → Cell α) {v w : ι} (h : w ≠ v) : modify c v change w = c w := by
  simp [modify, h]

@[simp] lemma setStatus_mHasValue (status : Status) :
    (setStatus c v status w).mHasValue = (c w).mHasValue := by
  unfold setStatus modify
  split_ifs <;> rfl

lemma setStatus_mStatus (status : Status) :
    (setStatus c v status w).mStatus = if w = v then status else (c w).mStatus := by
  unfold setStatus modify
  split_ifs <;> rfl

end Cells

section Flow

def Cell.held (cell : Cell α) : List α := if cell.mHasValue then [cell.mValue] else []

/-- The equation of `rest` at functor `v`. Functors that store what they receive have received
`total v` at the end; the concats in `K` have used up the inputs before their index. -/
def FlowAt (G : ι → Functor ι α) (K : ι → Prop) (total : ι → List α) (c : ι → Cell α)
    (rest : ι → List α) (v : ι) : Prop :=
  match G v with
  | .rawData _ => (c v).Indexed ∧ rest v = (c v).pending
  | .filter u func => rest v = (c v).held ++ (rest u).filter func
  | .concat u added =>
    (K v → ∀ w ∈ (u :: added).take (c v).mUpperIndex, rest w = []) ∧
      rest v = (c v).held ++ (((u :: added).drop (c v).mUpperIndex).map rest).flatten
  | .split u _ => (c v).mHasValue = false ∧ rest v = rest u
  | .splitStream s =>
    (c v).Indexed ∧ (rest s ≠ [] → (c v).next ≤ (c v).mData.length) ∧
      (total v).length < 2 ^ 31 ∧ total v = (c v).mData ++ rest s ∧
      rest v = (c v).pending ++ rest s
  | .memoryOutput u =>
    (c v).mHasValue = false ∧ total v = (c v).mData ++ rest u ∧ rest v = rest u

def Flow (G : ι → Functor ι α) (K : ι → Prop) (total : ι → List α) (c : ι → Cell α)
    (rest : ι → List α) : Prop :=
  ∀ v, FlowAt G K total c rest v

variable {G : ι → Functor ι α} {rank : ι → ℕ} {K : ι → Prop} {total : ι → List α}
  {c c' : ι → Cell α} {rest rest' : ι → List α} {v w : ι}

/-- `concat`: of the inputs before the index and of the others the records to come are the same. -/
lemma inputs_frame {inputs : List ι} (n : ℕ) (hp : ∀ u ∈ inputs, rest' u = rest u) :
    (∀ w ∈ inputs.take n, rest' w = rest w) ∧
      (inputs.drop n).map rest' = (inputs.drop n).map rest := by
  constructor
  · intro w hw
    exact hp w (List.mem_of_mem_take hw)
  · exact List.map_congr_left fun u hu => hp u (List.mem_of_mem_drop hu)

lemma FlowAt.frame (h : FlowAt G K total c rest v) (hc : c' v = c v) (hr : rest' v = rest v)
    (hp : ∀ u ∈ (G v).predecessors, rest' u = rest u) : FlowAt G K total c' rest' v := by
  unfold FlowAt at h ⊢
  cases hG : G v with
  | rawData xs =>
    simp only [hG] at h ⊢
    rw [hc, hr]
    exact h
  | filter u func =>
    simp only [hG, Functor.predecessors, List.mem_singleton, forall_eq] at h hp ⊢
    rw [hc, hr, hp]
    exact h
  | concat u added =>
    simp only [hG, Functor.predecessors] at h hp ⊢
    obtain ⟨hbefore, hafter⟩ := inputs_frame _ hp
    rw [hc, hr, hafter]
    exact ⟨fun hv w hw => (hbefore w hw).trans (h.1 hv w hw), h.2⟩
  | split u rs =>
    simp only [hG, Functor.predecessors, List.mem_singleton, forall_eq] at h hp ⊢
    rw [hc, hr, hp]
    exact h
  | splitStream s =>
    simp only [hG, Functor.predecessors, List.mem_singleton, forall_eq] at h hp ⊢
    rw [hc, hr, hp]
    exact h
  | memoryOutput u =>
    simp only [hG, Functor.predecessors, List.mem_singleton, forall_eq] at h hp ⊢
    rw [hc, hr, hp]
    exact h

lemma FlowAt.holds (h : FlowAt G K total c rest v) (hv : (c v).mHasValue = true) :
    (G v).holdsValue = true := by
  unfold FlowAt at h
  cases hG : G v with
  | split u rs => simp [hG, hv] at h
  | memoryOutput u => simp [hG, hv] at h
  | rawData | filter | concat | splitStream => rfl

/-- A functor with a value: what `output_value` returns is the next record, and the equation
stays when the value is taken. -/
lemma FlowAt.take (h : FlowAt G K total c rest v) (hv : (c v).mHasValue = true) :
    ∃ x tail, outputValue G c v = .ok x ∧ rest v = x :: tail ∧
      ∀ c' rest', c' v = { c v with mHasValue := false } → rest' v = tail →
        (∀ u ∈ (G v).predecessors, rest' u = rest u) → FlowAt G K total c' rest' v := by
  have hholds := h.holds hv
  unfold FlowAt at h
  unfold outputValue FlowAt
  cases hG : G v with
  | rawData xs =>
    simp only [hG] at h ⊢
    obtain ⟨x, hx, hi, hp⟩ := Cell.rawValue_ok h.1 hv
    refine ⟨x, _, hx, h.2.trans hp, ?_⟩
    intro c' rest' hc hr _
    rw [hc, hr]
    exact ⟨hi, rfl⟩
  | filter u func =>
    simp only [hG, Cell.held, hv, if_true] at h ⊢
    refine ⟨_, _, rfl, h, ?_⟩
    intro c' rest' hc hr hp
    rw [hc, hr, hp u (by simp [Functor.predecessors])]
    simp
  | concat u added =>
    simp only [hG, Cell.held, hv, if_true] at h ⊢
    refine ⟨_, _, rfl, h.2, ?_⟩
    intro c' rest' hc hr hp
    simp only [Functor.predecessors] at hp
    obtain ⟨hbefore, hafter⟩ := inputs_frame _ hp
    rw [hc, hr, hafter]
    exact ⟨fun hv w hw => (hbefore w hw).trans (h.1 hv w hw), by simp⟩
  | splitStream s =>
    simp only [hG] at h ⊢
    obtain ⟨hindex, hnext, hlt, htotal, hrest⟩ := h
    obtain ⟨x, hx, hi, hp⟩ := Cell.rawValue_ok hindex hv
    rw [hp] at hrest
    refine ⟨x, _, hx, hrest, ?_⟩
    intro c' rest' hc hr hps
    rw [hc, hr, hps s (by simp [Functor.predecessors])]
    refine ⟨hi, ?_, hlt, htotal, rfl⟩
    intro hs
    have hb := hnext hs
    have hcast := castInt_le (c v).mData.length
    have hlast := hindex.2 hv
    simp only [Cell.next, Bool.false_eq_true, if_false]
    omega
  | split u rs => simp [hG, Functor.holdsValue] at hholds
  | memoryOutput u => simp [hG, Functor.holdsValue] at hholds

lemma FlowAt.rest_ne_nil (h : FlowAt G K total c rest v) (hv : (c v).mHasValue = true) :
    rest v ≠ [] := by
  obtain ⟨x, tail, -, hr, -⟩ := h.take hv
  simp [hr]

/-- Without a value and without anything to come from its inputs a functor has ended. -/
lemma FlowAt.rest_nil (h : FlowAt G K total c rest v) (hv : (c v).mHasValue = false)
    (hw : ∀ w ∈ (G v).predecessors, rest w = [])
    (hs : (G v).IsSource → (c v).pending = []) : rest v = [] := by
  unfold FlowAt at h
  cases hG : G v with
  | rawData xs =>
    simp only [hG] at h
    rw [h.2, hs (by simp [hG, Functor.IsSource])]
  | filter u func =>
    simp only [hG, Cell.held, hv, Bool.false_eq_true, if_false, List.nil_append] at h
    rw [h, hw u (by simp [hG, Functor.predecessors])]
    rfl
  | concat u added =>
    simp only [hG, Cell.held, hv, Bool.false_eq_true, if_false, List.nil_append] at h
    rw [h.2, List.flatten_eq_nil_iff]
    intro l hl
    obtain ⟨w, hmem, rfl⟩ := List.mem_map.mp hl
    exact hw w (by simpa [hG, Functor.predecessors] using List.mem_of_mem_drop hmem)
  | split u rs =>
    simp only [hG] at h
    rw [h.2, hw u (by simp [hG, Functor.predecessors])]
  | splitStream s =>
    simp only [hG] at h
    rw [h.2.2.2.2, hs (by simp [hG, Functor.IsSource]), hw s (by simp [hG, Functor.predecessors])]
    rfl
  | memoryOutput u =>
    simp only [hG] at h
    rw [h.2.2, hw u (by simp [hG, Functor.predecessors])]

lemma Flow.split_empty (hF : Flow G K total c rest) (hs : (G v).IsSplit) :
    (c v).mHasValue = false := by
  have h := hF v
  unfold FlowAt at h
  cases hG : G v with
  | split u rs =>
    simp only [hG] at h
    exact h.1
  | rawData | filter | concat | splitStream | memoryOutput => simp [hG, Functor.IsSplit] at hs

lemma Flow.only_consumer (hF : Flow G K total c rest) (N : Network G rank)
    (hw : (c w).mHasValue = true) (hv : w ∈ (G v).predecessors) {x : ι}
    (hx : w ∈ (G x).predecessors) : x = v := by
  rcases N.consumer hx hv with he | hs
  · exact he
  · rw [hF.split_empty hs] at hw
    exact absurd hw (by simp)

/-- The equations after functor `v` has taken the value of its input `w`. -/
lemma Flow.take (hF : Flow G K total c rest) (N : Network G rank) (hwv : w ∈ (G v).predecessors)
    (hw : (c w).mHasValue = true) {tail : List α}
    (htake : ∀ c' rest', c' w = { c w with mHasValue := false } → rest' w = tail →
      (∀ u ∈ (G w).predecessors, rest' u = rest u) → FlowAt G K total c' rest' w)
    (hc : c' w = { c w with mHasValue := false }) (hr : rest' w = tail)
    (hrest : ∀ x, x ≠ w → x ≠ v → rest' x = rest x) (hv : FlowAt G K total c' rest' v)
    (hx : ∀ x, x ≠ w → x ≠ v → FlowAt G K total c' rest' x ∨
      (c' x = c x ∧ (v ∈ (G x).predecessors → rest' v = rest v))) :
    Flow G K total c' rest' := by
  intro x
  by_cases hxv : x = v
  · rw [hxv]
    exact hv
  by_cases hxw : x = w
  · subst hxw
    apply htake c' rest' hc hr
    intro u hu
    apply hrest u (N.ne hu)
    intro huv
    have h1 := N.rank_lt hu
    have h2 := N.rank_lt hwv
    rw [huv] at h1
    omega
  rcases hx x hxw hxv with h | ⟨hcx, hrv⟩
  · exact h
  · refine (hF x).frame hcx (hrest x hxw hxv) ?_
    intro u hu
    by_cases huw : u = w
    · rw [huw] at hu
      exact absurd (hF.only_consumer N hw hwv hu) hxv
    by_cases huv : u = v
    · rw [huv] at hu ⊢
      exact hrv hu
    exact hrest u huw huv

end Flow

section Left
variable {G : ι → Functor ι α} {rank : ι → ℕ} {K : ι → Prop} {total : ι → List α}
  {c c' : ι → Cell α} {rest : ι → List α} {v : ι}

/-- The records that functor `v` has itself. -/
def own (G : ι → Functor ι α) (c : ι → Cell α) (v : ι) : List α :=
  match G v with
  | .rawData _ => (c v).pending
  | .splitStream _ => (c v).pending
  | .filter _ _ => (c v).held
  | .concat _ _ => (c v).held
  | .split _ _ => []
  | .memoryOutput _ => []

/-- What functor `v` hands on of the records that its inputs hand on. -/
def passOn (G : ι → Functor ι α) (c : ι → Cell α) (read : ι → List α) (v : ι) : List α :=
  match G v with
  | .rawData _ => []
  | .filter u func => (read u).filter func
  | .concat u added => (((u :: added).drop (c v).mUpperIndex).map read).flatten
  | .split u _ => read u
  | .splitStream s => read s
  | .memoryOutput u => read u

/-- The records that functor `v` has still to hand on, for a `fuel` of its rank. -/
def left (G : ι → Functor ι α) (c : ι → Cell α) : ℕ → ι → List α
  | 0, v => own G c v
  | fuel + 1, v => own G c v ++ passOn G c (left G c fuel) v

def Balanced (G : ι → Functor ι α) (c : ι → Cell α) (rest : ι → List α) : Prop :=
  ∀ v, rest v = own G c v ++ passOn G c rest v

lemma own_congr (h : c' v = c v) : own G c' v = own G c v := by
  unfold own
  rw [h]

lemma passOn_nil {read : ι → List α} (h : ∀ u ∈ (G v).predecessors, read u = []) :
    passOn G c read v = [] := by
  unfold passOn
  cases hG : G v with
  | rawData data => rfl
  | concat u added =>
    simp only [hG, Functor.predecessors] at h ⊢
    rw [List.flatten_eq_nil_iff]
    intro l hl
    obtain ⟨w, hw, rfl⟩ := List.mem_map.mp hl
    exact h w (List.mem_of_mem_drop hw)
  | filter | split | splitStream | memoryOutput =>
    simp only [hG, Functor.predecessors, List.mem_singleton, forall_eq] at h ⊢
    simp [h]

lemma passOn_congr {read read' : ι → List α} (hc : (c' v).mUpperIndex = (c v).mUpperIndex)
    (h : ∀ u ∈ (G v).predecessors, read' u = read u) :
    passOn G c' read' v = passOn G c read v := by
  unfold passOn
  cases hG : G v with
  | rawData data => rfl
  | concat u added =>
    simp only [hG, Functor.predecessors] at h ⊢
    rw [hc, List.map_congr_left fun w hw => h w (List.mem_of_mem_drop hw)]
  | filter | split | splitStream | memoryOutput =>
    simp only [hG, Functor.predecessors, List.mem_singleton, forall_eq] at h ⊢
    rw [h]

lemma flatten_map_sublist {read read' : ι → List α} {inputs : List ι}
    (h : ∀ u ∈ inputs, (read' u).Sublist (read u)) :
    ((inputs.map read').flatten).Sublist (inputs.map read).flatten := by
  induction inputs with
  | nil => exact List.Sublist.refl _
  | cons u inputs ih =>
    simp only [List.map_cons, List.flatten_cons]
    exact (h u List.mem_cons_self).append (ih fun w hw => h w (List.mem_cons_of_mem u hw))

lemma flatten_map_perm {a b read : ι → List α} {inputs : List ι}
    (h : ∀ u ∈ inputs, (a u ++ b u).Perm (read u)) :
    ((inputs.map a).flatten ++ (inputs.map b).flatten).Perm (inputs.map read).flatten := by
  induction inputs with
  | nil => exact List.Perm.refl _
  | cons u inputs ih =>
    simp only [List.map_cons, List.flatten_cons]
    have hu := h u List.mem_cons_self
    have hinputs := ih fun w hw => h w (List.mem_cons_of_mem u hw)
    refine List.Perm.trans ?_ (hu.append hinputs)
    rw [List.append_assoc, List.append_assoc]
    refine List.Perm.append_left _ ?_
    rw [← List.append_assoc, ← List.append_assoc]
    exact List.perm_append_comm.append_right _

lemma passOn_sublist {read read' : ι → List α} (hc : (c' v).mUpperIndex = (c v).mUpperIndex)
    (h : ∀ u ∈ (G v).predecessors, (read' u).Sublist (read u)) :
    (passOn G c' read' v).Sublist (passOn G c read v) := by
  unfold passOn
  cases hG : G v with
  | rawData data => exact List.Sublist.refl _
  | concat u added =>
    simp only [hG, Functor.predecessors] at h ⊢
    rw [hc]
    exact flatten_map_sublist fun w hw => h w (List.mem_of_mem_drop hw)
  | filter u func =>
    simp only [hG, Functor.predecessors, List.mem_singleton, forall_eq] at h ⊢
    exact h.filter func
  | split | splitStream | memoryOutput =>
    simp only [hG, Functor.predecessors, List.mem_singleton, forall_eq] at h ⊢
    exact h

lemma passOn_perm {a b read : ι → List α} (hc : (c' v).mUpperIndex = (c v).mUpperIndex)
    (h : ∀ u ∈ (G v).predecessors, (a u ++ b u).Perm (read u)) :
    (passOn G c' a v ++ passOn G c b v).Perm (passOn G c read v) := by
  unfold passOn
  cases hG : G v with
  | rawData data => exact List.Perm.refl _
  | concat u added =>
    simp only [hG, Functor.predecessors] at h ⊢
    rw [hc]
    exact flatten_map_perm fun w hw => h w (List.mem_of_mem_drop hw)
  | filter u func =>
    simp only [hG, Functor.predecessors, List.mem_singleton, forall_eq] at h ⊢
    rw [← List.filter_append]
    exact h.filter func
  | split | splitStream | memoryOutput =>
    simp only [hG, Functor.predecessors, List.mem_singleton, forall_eq] at h ⊢
    exact h

lemma FlowAt.balanced (h : FlowAt G K total c rest v) :
    rest v = own G c v ++ passOn G c rest v := by
  unfold FlowAt at h
  unfold own passOn
  cases hG : G v with
  | rawData data =>
    simp only [hG] at h ⊢
    rw [h.2, List.append_nil]
  | filter u func =>
    simp only [hG] at h ⊢
    exact h
  | concat u added =>
    simp only [hG] at h ⊢
    exact h.2
  | split u rs =>
    simp only [hG] at h ⊢
    exact h.2
  | splitStream s =>
    simp only [hG] at h ⊢
    exact h.2.2.2.2
  | memoryOutput u =>
    simp only [hG] at h ⊢
    exact h.2.2

lemma Flow.balanced (hF : Flow G K total c rest) : Balanced G c rest :=
  fun v => (hF v).balanced

lemma Network.no_input (N : Network G rank) (h : rank v = 0) : (G v).predecessors = [] := by
  rw [List.eq_nil_iff_forall_not_mem]
  intro u hu
  have hlt := N.rank_lt hu
  omega

lemma left_fuel (N : Network G rank) (c : ι → Cell α) (n : ℕ) :
    ∀ m v, rank v ≤ n → rank v ≤ m → left G c n v = left G c m v := by
  induction n with
  | zero =>
    intro m v hn _
    cases m with
    | zero => rfl
    | succ m =>
      rw [left, left, passOn_nil (by simp [N.no_input (v := v) (by omega)]), List.append_nil]
  | succ n ih =>
    intro m v hn hm
    cases m with
    | zero =>
      rw [left, left, passOn_nil (by simp [N.no_input (v := v) (by omega)]), List.append_nil]
    | succ m =>
      rw [left, left]
      congr 1
      apply passOn_congr rfl
      intro u hu
      have hlt := N.rank_lt hu
      exact ih m u (by omega) (by omega)

lemma exists_balanced (N : Network G rank) (c : ι → Cell α) : ∃ rest, Balanced G c rest := by
  refine ⟨fun v => left G c (rank v) v, fun v => ?_⟩
  refine (left_fuel N c (rank v) (rank v + 1) v le_rfl (by omega)).trans ?_
  rw [left]
  congr 1
  apply passOn_congr rfl
  intro u hu
  exact left_fuel N c _ _ u (N.rank_lt hu).le le_rfl

lemma left_eq (N : Network G rank) (h : Balanced G c rest) (fuel : ℕ) :
    ∀ v, rank v ≤ fuel → left G c fuel v = rest v := by
  induction fuel with
  | zero =>
    intro v hv
    rw [left, h v, passOn_nil (by simp [N.no_input (v := v) (by omega)]), List.append_nil]
  | succ fuel ih =>
    intro v hv
    rw [left, h v]
    congr 1
    apply passOn_congr rfl
    intro u hu
    have hlt := N.rank_lt hu
    exact ih u (by omega)

end Left

end PrivacyComputing.Hpda
