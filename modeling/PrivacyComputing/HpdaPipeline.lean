import Mathlib.Tactic.FinCases
import PrivacyComputing.HpdaDiscipline

/-! Tree-shaped pipelines of raw_data, filter and concat that end in memory_outputs, and what
`engine::run` leaves in them: the denotation of the pipeline, over what the sources hand on. -/
namespace PrivacyComputing.Hpda

section Pipes

/-- A pipeline over sources of type `ρ`. -/
inductive Pipe (ρ α : Type*)
  | source (leaf : ρ)
  | filter (func : α → Bool) (upper : Pipe ρ α)
  | concat (upper : Pipe ρ α) (added : List (Pipe ρ α))

variable {ρ α : Type*}

mutual

def Pipe.denote (read : ρ → List α) : Pipe ρ α → List α
  | .source leaf => read leaf
  | .filter func upper => (upper.denote read).filter func
  | .concat upper added => upper.denote read ++ denoteAll read added

def denoteAll (read : ρ → List α) : List (Pipe ρ α) → List α
  | [] => []
  | p :: added => p.denote read ++ denoteAll read added

end

mutual

def Pipe.size : Pipe ρ α → ℕ
  | .source _ => 0
  | .filter _ upper => upper.size + 1
  | .concat upper added => upper.size + sizeAll added + 1

def sizeAll : List (Pipe ρ α) → ℕ
  | [] => 0
  | p :: added => p.size + sizeAll added

end

lemma Pipe.size_le_sizeAll {p : Pipe ρ α} {added : List (Pipe ρ α)} (h : p ∈ added) :
    p.size ≤ sizeAll added := by
  induction added with
  | nil => simp at h
  | cons q added ih =>
    simp only [sizeAll]
    rcases List.mem_cons.mp h with rfl | hmem
    · omega
    · have hle := ih hmem
      omega

lemma Pipe.size_lt_concat {ι : Type*} (pipe : ι → Pipe ρ α) {u w : ι} {added : List ι}
    (h : w ∈ u :: added) : (pipe w).size < (Pipe.concat (pipe u) (added.map pipe)).size := by
  simp only [Pipe.size]
  rcases List.mem_cons.mp h with rfl | hmem
  · omega
  · have hle := Pipe.size_le_sizeAll (List.mem_map_of_mem (f := pipe) hmem)
    omega

lemma denoteAll_eq (read : ρ → List α) (added : List (Pipe ρ α)) :
    denoteAll read added = (added.map (Pipe.denote read)).flatten := by
  induction added with
  | nil => rfl
  | cons p added ih => simp [denoteAll, ih]

mutual

theorem Pipe.denote_sublist {read read' : ρ → List α}
    (h : ∀ leaf, (read leaf).Sublist (read' leaf)) :
    ∀ p : Pipe ρ α, (p.denote read).Sublist (p.denote read')
  | .source leaf => by
    simp only [Pipe.denote]
    exact h leaf
  | .filter func upper => by
    simp only [Pipe.denote]
    exact (upper.denote_sublist h).filter func
  | .concat upper added => by
    simp only [Pipe.denote]
    exact (upper.denote_sublist h).append (denoteAll_sublist h added)

theorem denoteAll_sublist {read read' : ρ → List α}
    (h : ∀ leaf, (read leaf).Sublist (read' leaf)) :
    ∀ added : List (Pipe ρ α), (denoteAll read added).Sublist (denoteAll read' added)
  | [] => List.Sublist.refl _
  | p :: added => by
    simp only [denoteAll]
    exact (p.denote_sublist h).append (denoteAll_sublist h added)

end

mutual

/-- The filters down from a source, `keep` among them, reject every record of it that its index
does not reach. -/
def Pipe.Lossless (keep : α → Bool) : Pipe (List α) α → Prop
  | .source data => ∀ x ∈ data.drop (castInt data.length).toNat, keep x = false
  | .filter func upper => upper.Lossless fun x => keep x && func x
  | .concat upper added => upper.Lossless keep ∧ AllLossless keep added

def AllLossless (keep : α → Bool) : List (Pipe (List α) α) → Prop
  | [] => True
  | p :: added => p.Lossless keep ∧ AllLossless keep added

end

/-- With fewer than `2 ^ 31` records the index reaches all of them. -/
lemma lossless_source {keep : α → Bool} {data : List α} (h : data.length < 2 ^ 31) :
    (Pipe.source data).Lossless keep := by
  rw [Pipe.Lossless, castInt_of_lt h]
  simp

lemma append_eq_append_iff_of_sublist {as as' bs bs' : List α} (ha : as.Sublist as')
    (hb : bs.Sublist bs') : as ++ bs = as' ++ bs' ↔ as = as' ∧ bs = bs' := by
  constructor
  · intro h
    have hlen := congrArg List.length h
    simp only [List.length_append] at hlen
    have h1 := ha.length_le
    have h2 := hb.length_le
    exact ⟨ha.eq_of_length (by omega), hb.eq_of_length (by omega)⟩
  · rintro ⟨rfl, rfl⟩
    rfl

lemma delivered_sublist (data : List α) : (delivered data).Sublist (id data) :=
  List.take_sublist _ _

mutual

theorem Pipe.denote_delivered_iff : ∀ (keep : α → Bool) (p : Pipe (List α) α),
    (p.denote delivered).filter keep = (p.denote id).filter keep ↔ p.Lossless keep
  | keep, .source data => by
    simp only [Pipe.denote, Pipe.Lossless, delivered, id]
    constructor
    · intro h x hx
      have hsplit := congrArg (List.filter keep)
        (List.take_append_drop (castInt data.length).toNat data)
      rw [List.filter_append, ← h, List.append_right_eq_self, List.filter_eq_nil_iff] at hsplit
      simpa using hsplit x hx
    · intro h
      have hnil : (data.drop (castInt data.length).toNat).filter keep = [] := by
        apply List.filter_eq_nil_iff.mpr
        intro x hx
        simp [h x hx]
      calc (data.take (castInt data.length).toNat).filter keep
          = (data.take (castInt data.length).toNat ++
              data.drop (castInt data.length).toNat).filter keep := by
            rw [List.filter_append, hnil, List.append_nil]
        _ = data.filter keep := by rw [List.take_append_drop]
  | keep, .filter func upper => by
    simp only [Pipe.denote, Pipe.Lossless, List.filter_filter]
    exact upper.denote_delivered_iff _
  | keep, .concat upper added => by
    simp only [Pipe.denote, Pipe.Lossless, List.filter_append]
    rw [append_eq_append_iff_of_sublist ((upper.denote_sublist delivered_sublist).filter keep)
      ((denoteAll_sublist delivered_sublist added).filter keep),
      upper.denote_delivered_iff keep, denoteAll_delivered_iff keep added]

theorem denoteAll_delivered_iff : ∀ (keep : α → Bool) (added : List (Pipe (List α) α)),
    (denoteAll delivered added).filter keep = (denoteAll id added).filter keep ↔
      AllLossless keep added
  | keep, [] => by simp [denoteAll, AllLossless]
  | keep, p :: added => by
    simp only [denoteAll, AllLossless, List.filter_append]
    rw [append_eq_append_iff_of_sublist ((p.denote_sublist delivered_sublist).filter keep)
      ((denoteAll_sublist delivered_sublist added).filter keep),
      p.denote_delivered_iff keep, denoteAll_delivered_iff keep added]

end

end Pipes

section Pipelines
variable {ι α : Type*} [DecidableEq ι] {G : ι → Functor ι α} {pipe : ι → Pipe (List α) α}
  {outputs : List ι}

/-- Disjoint trees: `pipe v` is the pipeline that functor `v` is the end of, no functor is the
input of two, and the functors that are the input of none are the memory_outputs. -/
structure Pipelines (G : ι → Functor ι α) (pipe : ι → Pipe (List α) α) : Prop where
  built : ∀ v,
    match G v with
    | .rawData data => pipe v = .source data
    | .filter u func => pipe v = .filter func (pipe u)
    | .concat u added => pipe v = .concat (pipe u) (added.map pipe)
    | .memoryOutput u => pipe v = pipe u
    | .split _ _ => False
    | .splitStream _ => False
  nodup : ∀ v, (G v).predecessors.Nodup
  disjoint : ∀ {c f g}, c ∈ (G f).predecessors → c ∈ (G g).predecessors → f = g
  output : ∀ v, IsOutput G v ↔ ∃ u, G v = .memoryOutput u

/-- A memory_output stands one above the end of its pipeline. -/
def height (G : ι → Functor ι α) (size : ι → ℕ) (v : ι) : ℕ :=
  match G v with
  | .memoryOutput _ => 2 * size v + 1
  | _ => 2 * size v

omit [DecidableEq ι] in
lemma height_input {size : ι → ℕ} (hout : ∀ v, IsOutput G v ↔ ∃ u, G v = .memoryOutput u) {f c : ι}
    (hc : c ∈ (G f).predecessors) : height G size c = 2 * size c := by
  have hnot : ¬∃ u, G c = .memoryOutput u := by
    rw [← hout]
    exact fun h => h f hc
  unfold height
  cases hG : G c with
  | memoryOutput u => exact absurd ⟨u, hG⟩ hnot
  | rawData | filter | concat | split | splitStream => rfl

omit [DecidableEq ι] in
lemma Pipelines.network (P : Pipelines G pipe) :
    Network G (height G fun v => (pipe v).size) := by
  have hsplit : ∀ v, ¬(G v).IsSplit := by
    intro v hs
    have hv := P.built v
    cases hG : G v <;> simp [hG, Functor.IsSplit] at hs hv
  have hstream : ∀ r s, G r ≠ .splitStream s := by
    intro r s hG
    have hv := P.built r
    simp [hG] at hv
  refine ⟨P.nodup, ?_, fun hf hg => Or.inl (P.disjoint hf hg), ?_, ?_, ?_, P.output⟩
  · intro f c hc
    rw [height_input P.output hc]
    have hf := P.built f
    unfold height
    cases hG : G f with
    | rawData data => simp [hG, Functor.predecessors] at hc
    | filter u func =>
      simp only [hG, Functor.predecessors, List.mem_singleton] at hc hf ⊢
      rw [hf, hc, Pipe.size]
      omega
    | concat u added =>
      simp only [hG, Functor.predecessors] at hc hf ⊢
      have hlt := Pipe.size_lt_concat pipe hc
      rw [hf]
      omega
    | memoryOutput u =>
      simp only [hG, Functor.predecessors, List.mem_singleton] at hc hf ⊢
      subst hc
      rw [hf]
      omega
    | split | splitStream => simp [hG] at hf
  · intro s u rs hG
    exact absurd (by simp [hG, Functor.IsSplit]) (hsplit s)
  · intro c f hs _
    exact absurd hs (hsplit c)
  · intro r s hG
    exact absurd hG (hstream r s)

omit [DecidableEq ι] in
lemma Pipelines.solves (P : Pipelines G pipe) :
    Solves G fun v => (pipe v).denote delivered := by
  intro v
  have hv := P.built v
  cases hG : G v with
  | rawData data =>
    simp only [hG] at hv ⊢
    rw [hv, Pipe.denote]
  | filter u func =>
    simp only [hG] at hv ⊢
    rw [hv, Pipe.denote]
  | concat u added =>
    simp only [hG] at hv ⊢
    rw [hv, Pipe.denote, denoteAll_eq]
    simp [Function.comp_def]
  | memoryOutput u =>
    simp only [hG] at hv ⊢
    rw [hv]
  | split | splitStream => simp [hG] at hv

variable [Fintype ι] [Inhabited α]

/-- The run comes to its end and leaves these lists in the outputs. -/
def Leaves (G : ι → Functor ι α) (outputs : List ι) (values : ι → List α) : Prop :=
  ∃ n st, run G outputs n = .ok st ∧ st.phase = .finished ∧
    ∀ o ∈ outputs, (st.cells o).mData = values o

omit [Fintype ι] in
lemma Leaves.unique {values values' : ι → List α} (h : Leaves G outputs values)
    (h' : Leaves G outputs values') : ∀ o ∈ outputs, values o = values' o := by
  obtain ⟨n, st, hrun, hst, hvalues⟩ := h
  obtain ⟨m, st', hrun', hst', hvalues'⟩ := h'
  have heq := run_unique hrun hst hrun' hst'
  intro o ho
  rw [← hvalues o ho, ← hvalues' o ho, heq]

/-- Over what the sources hand on the run leaves the denotation. -/
theorem Pipelines.leaves_delivered [Nonempty ι] (P : Pipelines G pipe)
    (hO : FindOutputs G outputs) : Leaves G outputs fun o => (pipe o).denote delivered := by
  have N := P.network
  have hD : Discipline G outputs (fun _ => True) (Solo fun _ => True) :=
    solo_discipline N hO (fun _ _ => trivial) (fun _ => trivial) (fun _ _ _ => trivial)
      (fun _ _ _ => trivial)
      fun c f _ hc => ⟨trivial, fun g hg => P.disjoint hg hc⟩
  obtain ⟨n, st, hrun, hst, hout, -⟩ := run_delivers N hD hO (N.outputs_ne_nil hO) P.solves
    fun _ _ _ _ _ => safe_of_forall fun _ => trivial
  refine ⟨n, st, hrun, hst, ?_⟩
  intro o ho
  obtain ⟨u, hG⟩ := (P.output o).mp ((hO.2 o).mp ho)
  exact hout o u hG

theorem run_leaves_denotation_iff [Nonempty ι] (P : Pipelines G pipe)
    (hO : FindOutputs G outputs) :
    Leaves G outputs (fun o => (pipe o).denote id) ↔
      ∀ o ∈ outputs, (pipe o).Lossless fun _ => true := by
  have hrun := P.leaves_delivered hO
  have hiff : ∀ o, (pipe o).denote delivered = (pipe o).denote id ↔
      (pipe o).Lossless fun _ => true := by
    intro o
    rw [← Pipe.denote_delivered_iff, List.filter_true, List.filter_true]
  constructor
  · intro h o ho
    exact (hiff o).mp (hrun.unique h o ho)
  · intro h
    obtain ⟨n, st, hn, hst, hvalues⟩ := hrun
    refine ⟨n, st, hn, hst, ?_⟩
    intro o ho
    rw [hvalues o ho]
    exact (hiff o).mpr (h o ho)

end Pipelines

section Instances

/-- Two pipelines: a concat of a source and a filter over another, and an empty source under a
filter and a concat. -/
def twoPipelines : Fin 9 → Functor (Fin 9) ℕ
  | 0 => .rawData [1, 2]
  | 1 => .rawData [3, 4, 6]
  | 2 => .filter 1 fun x => x % 2 = 0
  | 3 => .concat 0 [2]
  | 4 => .memoryOutput 3
  | 5 => .rawData []
  | 6 => .filter 5 fun _ => true
  | 7 => .concat 6 []
  | 8 => .memoryOutput 7

def twoPipes : Fin 9 → Pipe (List ℕ) ℕ
  | 0 => .source [1, 2]
  | 1 => .source [3, 4, 6]
  | 2 => .filter (fun x => x % 2 = 0) (.source [3, 4, 6])
  | 3 => .concat (.source [1, 2]) [.filter (fun x => x % 2 = 0) (.source [3, 4, 6])]
  | 4 => .concat (.source [1, 2]) [.filter (fun x => x % 2 = 0) (.source [3, 4, 6])]
  | 5 => .source []
  | 6 => .filter (fun _ => true) (.source [])
  | _ => .concat (.filter (fun _ => true) (.source [])) []

lemma twoPipelines_output (v : Fin 9) :
    IsOutput twoPipelines v ↔ ∃ u, twoPipelines v = .memoryOutput u := by
  fin_cases v <;> simp [IsOutput, twoPipelines, Fin.forall_fin_succ, Functor.predecessors]

lemma twoPipelines_built : Pipelines twoPipelines twoPipes where
  built := by
    intro v
    fin_cases v <;> rfl
  nodup := by decide
  disjoint := by
    have h : ∀ c f g, c ∈ (twoPipelines f).predecessors →
        c ∈ (twoPipelines g).predecessors → f = g := by decide
    exact fun {c f g} => h c f g
  output := twoPipelines_output

theorem two_pipelines_leave_denotation :
    Leaves twoPipelines [8, 4] (fun o => (twoPipes o).denote id) ∧
      (twoPipes 4).denote id = [1, 2, 4, 6] := by
  refine ⟨(run_leaves_denotation_iff twoPipelines_built (by decide)).mpr ?_, by decide⟩
  intro o ho
  fin_cases ho
  · simp only [twoPipes]
    rw [Pipe.Lossless, AllLossless, Pipe.Lossless]
    exact ⟨lossless_source (by simp), trivial⟩
  · simp only [twoPipes]
    rw [Pipe.Lossless, AllLossless, AllLossless, Pipe.Lossless]
    exact ⟨lossless_source (by simp), lossless_source (by simp), trivial⟩

/-- A source and a memory_output. -/
def onePipeline (data : List ℕ) : Fin 2 → Functor (Fin 2) ℕ
  | 0 => .rawData data
  | 1 => .memoryOutput 0

lemma onePipeline_built (data : List ℕ) :
    Pipelines (onePipeline data) fun _ => .source data where
  built := by
    intro v
    fin_cases v <;> rfl
  nodup := by
    intro v
    fin_cases v <;> simp [onePipeline, Functor.predecessors]
  disjoint := by
    intro c f g hf hg
    fin_cases f <;> fin_cases g <;> simp [onePipeline, Functor.predecessors] at hf hg ⊢
  output := by
    intro v
    fin_cases v <;> simp [IsOutput, onePipeline, Fin.forall_fin_succ, Functor.predecessors]

lemma onePipeline_outputs (data : List ℕ) : FindOutputs (onePipeline data) [1] := by
  refine ⟨by simp, fun v => ?_⟩
  fin_cases v <;> simp [IsOutput, onePipeline, Fin.forall_fin_succ, Functor.predecessors]

lemma castInt_two_pow : (castInt (2 ^ 31)).toNat = 0 := by
  unfold castInt
  rw [Int.bmod_def]
  split_ifs <;> omega

/-- A source with one record more than an `int` can count: nothing of it arrives. -/
theorem long_source_is_lost :
    Pipelines (onePipeline (List.replicate (2 ^ 31) 0))
        (fun _ => .source (List.replicate (2 ^ 31) 0)) ∧
      FindOutputs (onePipeline (List.replicate (2 ^ 31) 0)) [1] ∧
      Leaves (onePipeline (List.replicate (2 ^ 31) 0)) [1] (fun _ => []) ∧
      ¬Leaves (onePipeline (List.replicate (2 ^ 31) 0)) [1]
        fun _ => (Pipe.source (List.replicate (2 ^ 31) 0)).denote id := by
  have hlost : (Pipe.source (List.replicate (2 ^ 31) 0)).denote delivered = ([] : List ℕ) := by
    simp only [Pipe.denote, delivered, List.length_replicate, castInt_two_pow, List.take_zero]
  have hfull : ((Pipe.source (List.replicate (2 ^ 31) 0)).denote id : List ℕ).length = 2 ^ 31 := by
    simp only [Pipe.denote, id, List.length_replicate]
  have hrun := (onePipeline_built (List.replicate (2 ^ 31) 0)).leaves_delivered
    (onePipeline_outputs _)
  simp only [hlost] at hrun
  refine ⟨onePipeline_built _, onePipeline_outputs _, hrun, ?_⟩
  intro h
  have heq : [] = (Pipe.source (List.replicate (2 ^ 31) 0)).denote id :=
    hrun.unique h 1 (List.mem_singleton.mpr rfl)
  rw [← heq] at hfull
  exact absurd hfull (by simp)

end Instances

end PrivacyComputing.Hpda
