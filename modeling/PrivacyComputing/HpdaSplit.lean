import PrivacyComputing.HpdaPipeline

/-! One split with its streams: a tree-shaped pipeline upstream, filters and concats downstream
that end in memory_outputs. -/
namespace PrivacyComputing.Hpda

variable {ι α : Type*} {G : ι → Functor ι α} {split upper : ι} {streams : List ι}
  {Upstream : ι → Prop} {up : ι → Pipe (List α) α} {down : ι → Pipe ι α} {outputs : List ι}

/-- The split reads `upper`, the end of a pipeline. The leaves of a branch are the streams. -/
structure Fanout (G : ι → Functor ι α) (split upper : ι) (streams : List ι) (Upstream : ι → Prop)
    (up : ι → Pipe (List α) α) (down : ι → Pipe ι α) : Prop where
  split_eq : G split = .split upper streams
  streams_ne : streams ≠ []
  streams_nodup : streams.Nodup
  stream_iff : ∀ r s, G r = .splitStream s ↔ r ∈ streams ∧ s = split
  upper_upstream : Upstream upper
  split_below : ¬Upstream split
  upstream : ∀ v, Upstream v →
    match G v with
    | .rawData data => up v = .source data
    | .filter u func => Upstream u ∧ up v = .filter func (up u)
    | .concat u added =>
      (∀ w ∈ u :: added, Upstream w) ∧ up v = .concat (up u) (added.map up)
    | _ => False
  downstream : ∀ v, ¬Upstream v → v ≠ split →
    match G v with
    | .splitStream _ => down v = .source v
    | .filter u func => (¬Upstream u ∧ u ≠ split) ∧ down v = .filter func (down u)
    | .concat u added =>
      (∀ w ∈ u :: added, ¬Upstream w ∧ w ≠ split) ∧ down v = .concat (down u) (added.map down)
    | .memoryOutput u => (¬Upstream u ∧ u ≠ split) ∧ down v = down u
    | _ => False
  nodup : ∀ v, (G v).predecessors.Nodup
  disjoint : ∀ {c f g}, c ∈ (G f).predecessors → c ∈ (G g).predecessors → f = g ∨ c = split
  output : ∀ v, IsOutput G v ↔ ∃ u, G v = .memoryOutput u

section Missed
variable [DecidableEq ι]

/-- The records that `upper` hands on less because functor `f` is called in this state: what comes
out there of those that the call loses. -/
def missed (G : ι → Functor ι α) (upper : ι) (size : ι → ℕ) (c : ι → Cell α) (f : ι) : List α :=
  reaching G c f (lost G c (left G c (size f)) f) (size upper) upper

/-- If the next turn of the engine pops a functor upstream, none of the records that its call
loses would have come to the split. -/
def LosesNothing (G : ι → Functor ι α) (upper : ι) (Upstream : ι → Prop) (size : ι → ℕ)
    (st : State ι α) : Prop :=
  ∀ f ∈ st.processing.head?, st.phase = .pop → Upstream f → missed G upper size st.cells f = []

instance [DecidableEq α] [DecidablePred Upstream] (size : ι → ℕ) (st : State ι α) :
    Decidable (LosesNothing G upper Upstream size st) :=
  inferInstanceAs (Decidable (∀ f ∈ st.processing.head?, _))

end Missed

section Regions
variable (F : Fanout G split upper streams Upstream up down)
include F

lemma Fanout.isSplit_iff (v : ι) : (G v).IsSplit ↔ v = split := by
  constructor
  · intro hs
    by_contra hne
    by_cases hv : Upstream v
    · have h := F.upstream v hv
      cases hG : G v <;> simp [hG, Functor.IsSplit] at hs h
    · have h := F.downstream v hv hne
      cases hG : G v <;> simp [hG, Functor.IsSplit] at hs h
  · rintro rfl
    simp [F.split_eq, Functor.IsSplit]

lemma Fanout.upstream_input {f c : ι} (hf : Upstream f) (hc : c ∈ (G f).predecessors) :
    Upstream c ∧ (up c).size < (up f).size := by
  have h := F.upstream f hf
  cases hG : G f with
  | rawData data => simp [hG, Functor.predecessors] at hc
  | filter u func =>
    simp only [hG, Functor.predecessors, List.mem_singleton] at hc h
    rw [hc, h.2, Pipe.size]
    exact ⟨h.1, by omega⟩
  | concat u added =>
    simp only [hG, Functor.predecessors] at hc h
    rw [h.2]
    exact ⟨h.1 c hc, Pipe.size_lt_concat up hc⟩
  | split | splitStream | memoryOutput => simp [hG] at h

lemma Fanout.input_below {f c : ι} (hc : c ∈ (G f).predecessors) (hcu : ¬Upstream c) :
    ¬Upstream f ∧ f ≠ split := by
  refine ⟨fun hf => hcu (F.upstream_input hf hc).1, fun hfs => hcu ?_⟩
  have he : c = upper := by simpa [hfs, F.split_eq, Functor.predecessors] using hc
  rw [he]
  exact F.upper_upstream

/-- The input of a functor downstream is the split, for a stream, or downstream itself. -/
lemma Fanout.downstream_input {f c : ι} (hf : ¬Upstream f) (hfs : f ≠ split)
    (hc : c ∈ (G f).predecessors) :
    G f = .splitStream c ∧ c = split ∨
      (¬Upstream c ∧ c ≠ split) ∧
        height G (fun v => (down v).size) c < height G (fun v => (down v).size) f := by
  have h := F.downstream f hf hfs
  rw [height_input F.output hc]
  unfold height
  cases hG : G f with
  | rawData | split => simp [hG] at h
  | splitStream s =>
    simp only [hG, Functor.predecessors, List.mem_singleton] at hc
    rw [hc]
    exact Or.inl ⟨rfl, ((F.stream_iff f s).mp hG).2⟩
  | filter u func =>
    simp only [hG, Functor.predecessors, List.mem_singleton] at hc h
    refine Or.inr ⟨hc ▸ h.1, ?_⟩
    simp only [hc, h.2, Pipe.size]
    omega
  | concat u added =>
    simp only [hG, Functor.predecessors] at hc h
    have hlt := Pipe.size_lt_concat down hc
    refine Or.inr ⟨h.1 c hc, ?_⟩
    simp only [h.2]
    omega
  | memoryOutput u =>
    simp only [hG, Functor.predecessors, List.mem_singleton] at hc h
    refine Or.inr ⟨hc ▸ h.1, ?_⟩
    simp only [hc, h.2]
    omega

/-- Upstream the rank of a functor is the size of its pipeline. -/
lemma Fanout.network : ∃ rank, Network G rank ∧ ∀ v, Upstream v → rank v = (up v).size := by
  classical
  refine ⟨fun v => if Upstream v then (up v).size else if v = split then (up upper).size + 1
    else (up upper).size + 2 + height G (fun v => (down v).size) v,
    ⟨F.nodup, ?_, ?_, ?_, ?_, ?_, F.output⟩, fun v hv => if_pos hv⟩
  · intro f c hc
    by_cases hf : Upstream f
    · obtain ⟨hcu, hlt⟩ := F.upstream_input hf hc
      simp [hf, hcu, hlt]
    by_cases hfs : f = split
    · have hcu : c = upper := by
        simpa [hfs, F.split_eq, Functor.predecessors] using hc
      simp [hfs, F.split_below, hcu, F.upper_upstream]
    rcases F.downstream_input hf hfs hc with ⟨-, hcs⟩ | ⟨⟨hcu, hcs⟩, hlt⟩
    · simp only [hcs, F.split_below, hf, hfs, if_false, if_true]
      omega
    · simp [hf, hfs, hcu, hcs, hlt]
  · intro c f g hf hg
    rw [F.isSplit_iff]
    exact F.disjoint hf hg
  · intro s u rs hG
    have hs : s = split := (F.isSplit_iff s).mp (by simp [hG, Functor.IsSplit])
    have hrs : rs = streams := by
      rw [hs, F.split_eq] at hG
      simp only [Functor.split.injEq] at hG
      exact hG.2.symm
    refine ⟨hrs ▸ F.streams_nodup, fun r => ?_⟩
    rw [F.stream_iff, hrs]
    simp [hs]
  · intro c f hs hc
    rw [F.isSplit_iff] at hs
    subst hs
    by_cases hf : Upstream f
    · exact absurd (F.upstream_input hf hc).1 F.split_below
    by_cases hfs : f = c
    · have hcu : c = upper := by
        simpa [hfs, F.split_eq, Functor.predecessors] using hc
      exact absurd (hcu ▸ F.upper_upstream) F.split_below
    rcases F.downstream_input hf hfs hc with ⟨hG, -⟩ | ⟨⟨-, hcs⟩, -⟩
    · exact hG
    · exact absurd rfl hcs
  · intro r s hG
    rw [F.isSplit_iff]
    exact ((F.stream_iff r s).mp hG).2

lemma Fanout.stream_below {r : ι} (hr : r ∈ streams) : ¬Upstream r ∧ r ≠ split := by
  have hG := (F.stream_iff r split).mpr ⟨hr, rfl⟩
  refine ⟨fun hu => ?_, fun he => ?_⟩
  · have h := F.upstream r hu
    simp [hG] at h
  · rw [he, F.split_eq] at hG
    exact absurd hG (by simp)

lemma Fanout.output_below {o u : ι} (hG : G o = .memoryOutput u) : ¬Upstream o ∧ o ≠ split := by
  refine ⟨fun hu => ?_, fun he => ?_⟩
  · have h := F.upstream o hu
    simp [hG] at h
  · rw [he, F.split_eq] at hG
    exact absurd hG (by simp)

/-- What every functor hands on, the records that the split gives to its streams being `M`. -/
lemma Fanout.exists_lists (M : List α) :
    ∃ L : ι → List α, (∀ v, Upstream v → L v = (up v).denote delivered) ∧ L split = M ∧
      ∀ v, ¬Upstream v ∧ v ≠ split → L v = (down v).denote fun _ => M := by
  classical
  refine ⟨fun v => if Upstream v then (up v).denote delivered else if v = split then M
    else (down v).denote fun _ => M, ?_, ?_, ?_⟩
  · intro v hv
    exact if_pos hv
  · simp [F.split_below]
  · rintro v ⟨hv, hs⟩
    simp only
    rw [if_neg hv, if_neg hs]

lemma Fanout.solves (hlen : ((up upper).denote delivered).length < 2 ^ 31) :
    ∃ L, Solves G L ∧ (∀ r ∈ streams, L r = (up upper).denote delivered) ∧
      ∀ o u, G o = .memoryOutput u →
        L o = (down o).denote fun _ => (up upper).denote delivered := by
  obtain ⟨L, hup, hsplit, hdown⟩ := F.exists_lists ((up upper).denote delivered)
  have hstream : ∀ r ∈ streams, L r = (up upper).denote delivered := by
    intro r hr
    have hbelow := F.stream_below hr
    have h := F.downstream r hbelow.1 hbelow.2
    simp only [(F.stream_iff r split).mpr ⟨hr, rfl⟩] at h
    rw [hdown r hbelow, h, Pipe.denote]
  refine ⟨L, ?_, hstream, fun o u hG => hdown o (F.output_below hG)⟩
  intro v
  by_cases hv : Upstream v
  · have h := F.upstream v hv
    cases hG : G v with
    | rawData data =>
      simp only [hG] at h ⊢
      rw [hup v hv, h, Pipe.denote]
    | filter u func =>
      simp only [hG] at h ⊢
      rw [hup v hv, hup u h.1, h.2, Pipe.denote]
    | concat u added =>
      simp only [hG] at h ⊢
      rw [hup v hv, h.2, Pipe.denote, denoteAll_eq,
        List.map_congr_left fun w hw => hup w (h.1 w hw)]
      simp [Function.comp_def]
    | split | splitStream | memoryOutput => simp [hG] at h
  by_cases hs : v = split
  · simp only [hs, F.split_eq]
    rw [hsplit, hup upper F.upper_upstream]
  · have h := F.downstream v hv hs
    cases hG : G v with
    | rawData | split => simp [hG] at h
    | filter u func =>
      simp only [hG] at h ⊢
      rw [hdown v ⟨hv, hs⟩, hdown u h.1, h.2, Pipe.denote]
    | concat u added =>
      simp only [hG] at h ⊢
      rw [hdown v ⟨hv, hs⟩, h.2, Pipe.denote, denoteAll_eq,
        List.map_congr_left fun w hw => hdown w (h.1 w hw)]
      simp [Function.comp_def]
    | splitStream s =>
      obtain ⟨hmem, rfl⟩ := (F.stream_iff v s).mp hG
      simp only
      rw [hstream v hmem, hsplit]
      exact ⟨rfl, hlen⟩
    | memoryOutput u =>
      simp only [hG] at h ⊢
      rw [hdown v ⟨hv, hs⟩, hdown u h.1, h.2]

lemma Fanout.solo_below : ∀ c f, ¬Upstream c ∧ c ≠ split → c ∈ (G f).predecessors →
    (¬Upstream f ∧ f ≠ split) ∧ ∀ g, c ∈ (G g).predecessors → g = f := by
  rintro c f ⟨hcu, hcs⟩ hc
  exact ⟨F.input_below hc hcu, fun g hg => (F.disjoint hg hc).resolve_right hcs⟩

lemma Fanout.careful_below {v : ι} (hu : ¬Upstream v) (hv : Careful G v) :
    ¬Upstream v ∧ v ≠ split := by
  refine ⟨hu, fun he => ?_⟩
  subst he
  rcases hv with ⟨u, added, hG⟩ | ⟨s, hG⟩ | ⟨r, s, hG, hr⟩
  · rw [F.split_eq] at hG
    exact absurd hG (by simp)
  · rw [F.split_eq] at hG
    exact absurd hG (by simp)
  · exact (F.input_below hr (F.stream_below ((F.stream_iff r s).mp hG).1).1).2 rfl

/-- The functors downstream stand on the stack and the queue once at most, whatever happens
upstream. -/
lemma Fanout.discipline [DecidableEq ι] (hO : FindOutputs G outputs) :
    Discipline G outputs (fun v => ¬Upstream v) (Solo fun v => ¬Upstream v ∧ v ≠ split) := by
  obtain ⟨rank, N, -⟩ := F.network
  refine solo_discipline N hO (fun hcu hc => (F.input_below hc hcu).1) ?_ ?_
    (fun v => F.careful_below) F.solo_below
  · intro r s hG
    exact (F.stream_below ((F.stream_iff r s).mp hG).1).1
  · intro f w hf hwait hw
    have hfs : f ≠ split := by
      rintro rfl
      simp [F.split_eq] at hwait
    rcases F.downstream_input hf hfs hw with ⟨-, rfl⟩ | ⟨⟨hwu, -⟩, -⟩
    · exact F.split_below
    · exact hwu

/-- Two shapes in which all functors keep a discipline. -/
lemma Fanout.full_discipline [DecidableEq ι] (hO : FindOutputs G outputs)
    (horder : (∀ v, Upstream v → ∀ u added, G v ≠ .concat u added) ∨
      ∃ order, BreadthFirst G outputs order) : ∃ D, Discipline G outputs (fun _ => True) D := by
  obtain ⟨rank, N, -⟩ := F.network
  rcases horder with hconcat | ⟨order, B⟩
  · refine ⟨_, solo_discipline (S := fun v => ¬Upstream v ∧ v ≠ split) N hO (by simp) (by simp)
      (by simp) ?_ F.solo_below⟩
    intro v _ hv
    refine F.careful_below (fun hu => ?_) hv
    rcases hv with ⟨u, added, hG⟩ | ⟨s, hG⟩ | ⟨r, s, hG, hr⟩
    · exact hconcat v hu u added hG
    · exact (F.stream_below ((F.stream_iff v s).mp hG).1).1 hu
    · exact (F.input_below hr (F.stream_below ((F.stream_iff r s).mp hG).1).1).1 hu
  · exact ⟨_, breadthFirst_discipline B⟩

end Regions

section Delivery
variable [DecidableEq ι] [Inhabited α]

/-- The records of a source that its consumer has taken. -/
def Cell.handedOn (cell : Cell α) : List α := cell.mData.take cell.next

/-- The run comes to its end, every stream has handed on the records `L` and the outputs hold
these lists. -/
def Delivers (G : ι → Functor ι α) (outputs streams : List ι) (L : List α)
    (values : ι → List α) : Prop :=
  ∃ n st, run G outputs n = .ok st ∧ st.phase = .finished ∧
    (∀ r ∈ streams, (st.cells r).handedOn = L ∧ (st.cells r).mHasValue = false) ∧
    ∀ o ∈ outputs, (st.cells o).mData = values o

omit [Inhabited α] in
/-- The functors downstream have as many records to come as the split. -/
lemma Fanout.rest_below (F : Fanout G split upper streams Upstream up down) {c c' : ι → Cell α}
    {rest rest' : ι → List α} (hbal : Balanced G c rest) (hbal' : Balanced G c' rest')
    (hc : ∀ v, ¬Upstream v → c' v = c v) (hupper : rest' upper = rest upper) :
    ∀ v, ¬Upstream v → rest' v = rest v := by
  obtain ⟨rank, N, -⟩ := F.network
  intro v
  induction hn : rank v using Nat.strong_induction_on generalizing v with
  | _ n ih =>
    intro hv
    rw [hbal v, hbal' v, own_congr (hc v hv)]
    congr 1
    apply passOn_congr (by rw [hc v hv])
    intro u hu
    have hlt := N.rank_lt hu
    by_cases huu : Upstream u
    · have hvs : v = split := by
        by_contra hvs
        rcases F.downstream_input hv hvs hu with ⟨-, rfl⟩ | ⟨⟨h, -⟩, -⟩
        · exact F.split_below huu
        · exact h huu
      have hueq : u = upper := by
        simpa [hvs, F.split_eq, Functor.predecessors] using hu
      rw [hueq]
      exact hupper
    · exact ih _ (by omega) u rfl huu

omit [Inhabited α] in
lemma Fanout.missed_eq (F : Fanout G split upper streams Upstream up down) {K : ι → Prop}
    {total : ι → List α} {c : ι → Cell α} {rest : ι → List α} (hF : Flow G K total c rest) {f : ι}
    (hf : Upstream f) : missed G upper (fun v => (up v).size) c f =
      reaching G c f (lost G c rest f) (up upper).size upper := by
  obtain ⟨rank, N, hrank⟩ := F.network
  have hleft : (passed G c f).map (left G c (up f).size) = (passed G c f).map rest := by
    apply List.map_congr_left
    intro w hw
    have hlt := N.rank_lt (mem_passed hw).1
    rw [hrank f hf] at hlt
    exact left_eq N hF.balanced _ w hlt.le
  simp only [missed, lost, hleft]

omit [DecidableEq ι] [Inhabited α] in
lemma Fanout.transform (F : Fanout G split upper streams Upstream up down) {f : ι}
    (hf : Upstream f) (hne : (G f).predecessors ≠ []) : (G f).IsTransform := by
  have h := F.upstream f hf
  cases hG : G f with
  | rawData data => simp [hG, Functor.predecessors] at hne
  | filter u func => simp [Functor.IsTransform]
  | concat u added => simp [Functor.IsTransform]
  | split | splitStream | memoryOutput => simp [hG] at h

omit [Inhabited α] in
/-- The call of a functor upstream that is popped: the streams receive less by the records that
are missed. -/
theorem Fanout.fires [Fintype ι] (F : Fanout G split upper streams Upstream up down)
    {total : ι → List α} {c : ι → Cell α} {rest : ι → List α}
    (hF : Flow G (fun v => ¬Upstream v) total c rest) {f : ι} (hf : Upstream f)
    (hne : (G f).predecessors ≠ []) :
    ∃ ok c₁ total' rest', process G c f = .ok (ok, c₁) ∧
      Fired G (fun v => ¬Upstream v) total' f ok c (settle G ok c₁ f) rest rest' ∧
      (∀ r ∈ streams, (total' r).length + (missed G upper (fun v => (up v).size) c f).length =
        (total r).length) ∧
      (missed G upper (fun v => (up v).size) c f = [] → total' = total) := by
  obtain ⟨rank, N, hrank⟩ := F.network
  have ht := F.transform hf hne
  obtain ⟨ok, c₁, hprocess, P⟩ := popped N hF ht
  generalize hc' : settle G ok c₁ f = c' at P
  obtain ⟨rest', hbal⟩ := exists_balanced N c'
  have hbelow : ∀ v, ¬Upstream v → c' v = c v := by
    intro v hv
    have hvf : v ≠ f := fun he => hv (he ▸ hf)
    exact (P.cells v hvf).resolve_right fun h => hv (F.upstream_input hf h.1).1
  have htaken : ¬Taken G c c' f upper := by
    rintro ⟨hmem, -, -⟩
    have hsplit : upper ∈ (G split).predecessors := by simp [F.split_eq, Functor.predecessors]
    rcases F.disjoint hmem hsplit with rfl | rfl
    · exact F.split_below hf
    · exact F.split_below F.upper_upstream
  have hrestSplit : rest split = rest upper := by
    simpa [own, passOn, F.split_eq] using hF.balanced split
  have hrestSplit' : rest' split = rest' upper := by
    simpa [own, passOn, F.split_eq] using hbal split
  have hfuel : rank upper ≤ (up upper).size := (hrank upper F.upper_upstream).le
  rw [F.missed_eq hF hf]
  refine ⟨ok, c₁, received G c rest' total, rest', hprocess, ?_, ?_, ?_⟩
  · rw [hc']
    exact P.fired N hF hbal ht fun hK => absurd hf hK
  · intro r hr
    have hG := (F.stream_iff r split).mpr ⟨hr, rfl⟩
    have htotal := congrFun (hF.received_eq fun _ _ _ => rfl) r
    simp only [received, hG] at htotal ⊢
    rw [← htotal, List.length_append, List.length_append, hrestSplit, hrestSplit',
      ← P.length_rest N hF hbal htaken hfuel]
    omega
  · intro hnil
    have hsame := F.rest_below hF.balanced hbal hbelow (P.rest_eq N hF hbal htaken hfuel hnil)
    refine hF.received_eq fun v u h => hsame u ?_
    rcases h with hG | hG
    · obtain ⟨-, rfl⟩ := (F.stream_iff v u).mp hG
      exact F.split_below
    · have hv := F.output_below hG
      have h := F.downstream v hv.1 hv.2
      simp only [hG] at h
      exact h.1.1

section Runs
variable [Fintype ι] (F : Fanout G split upper streams Upstream up down)
  (hO : FindOutputs G outputs) {D : List ι → List ι → Prop} {st st' : State ι α}
  {total rest : ι → List α} {r : ι}
include F

omit [Inhabited α] in
lemma Fanout.safe_of_losesNothing (I : Inv G total (fun v => ¬Upstream v) D st rest)
    (h : LosesNothing G upper Upstream (fun v => (up v).size) st) :
    Safe G (fun v => ¬Upstream v) (· = total) st rest := by
  intro f stack hphase hstack hf
  have hu : Upstream f := not_not.mp hf
  obtain ⟨ok, c₁, total', rest', hprocess, hfired, -, hsame⟩ :=
    F.fires I.flow hu (I.stacked f (by simp [hstack]))
  exact ⟨ok, c₁, total', rest', hprocess, hsame (h f (by simp [hstack]) hphase hu), hfired⟩

omit [Inhabited α] in
lemma Fanout.safe_of_length (hr : r ∈ streams) {bound : ℕ}
    (I : Inv G total (fun v => ¬Upstream v) D st rest) (hbound : (total r).length ≤ bound) :
    Safe G (fun v => ¬Upstream v) (fun total => (total r).length ≤ bound) st rest := by
  intro f stack _ hstack hf
  obtain ⟨ok, c₁, total', rest', hprocess, hfired, hlength, -⟩ :=
    F.fires I.flow (not_not.mp hf) (I.stacked f (by simp [hstack]))
  have hle := hlength r hr
  exact ⟨ok, c₁, total', rest', hprocess, by omega, hfired⟩

include hO

omit [Inhabited α] in
/-- No stream ever receives more than it would receive if nothing was lost. -/
lemma Fanout.stream_length_le (hr : r ∈ streams)
    (I : Inv G total (fun v => ¬Upstream v) (Solo fun v => ¬Upstream v ∧ v ≠ split) st rest)
    {n : ℕ} (hrun : runSteps G outputs n st = .ok st') :
    (st'.cells r).mData.length ≤ (total r).length := by
  obtain ⟨rank, N, -⟩ := F.network
  obtain ⟨total', rest', hle, I'⟩ := runSteps_inv
    (T := fun t => (t r).length ≤ (total r).length) N (F.discipline hO) hO I le_rfl
    (fun st total rest I => F.safe_of_length hr I) hrun
  have hF := I'.flow r
  simp only [FlowAt, (F.stream_iff r split).mpr ⟨hr, rfl⟩] at hF
  rw [hF.2.2.2.1, List.length_append] at hle
  omega

omit [Inhabited α] in
/-- A turn of the engine in which records are missed. -/
lemma Fanout.missed_step (hr : r ∈ streams)
    (I : Inv G total (fun v => ¬Upstream v) (Solo fun v => ¬Upstream v ∧ v ≠ split) st rest)
    (h : ¬LosesNothing G upper Upstream (fun v => (up v).size) st) :
    ∃ st' total' rest', step G outputs st = .ok st' ∧ (total' r).length < (total r).length ∧
      Inv G total' (fun v => ¬Upstream v) (Solo fun v => ¬Upstream v ∧ v ≠ split) st' rest' := by
  obtain ⟨rank, N, -⟩ := F.network
  obtain ⟨c, queue, stack, phase⟩ := st
  simp only [LosesNothing, not_forall] at h
  obtain ⟨f, hf, rfl, hu, hmissed⟩ := h
  obtain ⟨stack, rfl⟩ := List.head?_eq_some_iff.mp hf
  obtain ⟨ok, c₁, total', rest', hprocess, hfired, hlength, -⟩ :=
    F.fires (c := c) I.flow hu (I.stacked f List.mem_cons_self)
  have hlt : (total' r).length < (total r).length := by
    have hle := hlength r hr
    have hpos := List.length_pos_of_ne_nil hmissed
    omega
  obtain ⟨st', final, left, hstep, hfinal, hmove⟩ : ∃ st' final left,
      popStep G f stack ⟨c, queue, f :: stack, .pop⟩ = .ok st' ∧
        (final r).length < (total r).length ∧ Move G (fun v => ¬Upstream v) outputs
          ⟨c, queue, f :: stack, .pop⟩ total rest st' final left :=
    popStep_move (T := fun t => (t r).length < (total r).length) N
      ⟨ok, c₁, total', rest', hprocess, hlt, hfired⟩
  exact ⟨st', final, left, hstep, hfinal, hmove.inv N (F.discipline hO) hO I⟩

/-- A run in which a stream receives all of its records has missed none. -/
lemma Fanout.losesNothing_of_length (hr : r ∈ streams) {st₀ : State ι α}
    (hstart : start G outputs = .ok st₀)
    (I : Inv G total (fun v => ¬Upstream v) (Solo fun v => ¬Upstream v ∧ v ≠ split) st₀ rest)
    {n : ℕ} (hrun : run G outputs n = .ok st) (hst : st.phase = .finished)
    (hlen : (total r).length ≤ (st.cells r).mData.length) {m : ℕ}
    (hrun' : run G outputs m = .ok st') :
    LosesNothing G upper Upstream (fun v => (up v).size) st' := by
  by_contra hnot
  obtain ⟨rank, N, -⟩ := F.network
  have hsteps : runSteps G outputs m st₀ = .ok st' := by simpa [run, hstart] using hrun'
  obtain ⟨total', rest', hle, I'⟩ := runSteps_inv
    (T := fun t => (t r).length ≤ (total r).length) N (F.discipline hO) hO I le_rfl
    (fun st total rest I => F.safe_of_length hr I) hsteps
  obtain ⟨next, final, left, hstep, hlt, I''⟩ := F.missed_step hO hr I' hnot
  have hnext : run G outputs (m + 1) = .ok next := by
    rw [run_add hrun']
    simp [runSteps, hstep]
  have hlast : runSteps G outputs n next = .ok st := by
    rw [← run_add hnext, Nat.add_comm, run_add hrun, runSteps_finished hst]
  have hmax := F.stream_length_le hO hr I'' hlast
  omega

end Runs

/-- Without a concat upstream, or with a search that visits every functor after its consumers,
nothing is lost. -/
theorem Fanout.loses_nothing [Fintype ι] (F : Fanout G split upper streams Upstream up down)
    (hO : FindOutputs G outputs) (hlen : ((up upper).denote delivered).length < 2 ^ 31)
    (horder : (∀ v, Upstream v → ∀ u added, G v ≠ .concat u added) ∨
      ∃ order, BreadthFirst G outputs order) {n : ℕ} {st : State ι α}
    (hrun : run G outputs n = .ok st) :
    LosesNothing G upper Upstream (fun v => (up v).size) st := by
  obtain ⟨rank, N, -⟩ := F.network
  obtain ⟨D, hD⟩ := F.full_discipline hO horder
  obtain ⟨L, hL, -⟩ := F.solves hlen
  have : Nonempty ι := ⟨split⟩
  obtain ⟨st₀, hstart, I₀⟩ := hL.inv hD hO (N.outputs_ne_nil hO)
  simp only [run, hstart] at hrun
  obtain ⟨total, rest, -, I⟩ := runSteps_inv (T := fun _ => True) N hD hO I₀ trivial
    (fun _ _ _ _ _ => safe_of_forall fun _ => trivial) hrun
  intro f hf hphase hu
  obtain ⟨c, queue, stack, phase⟩ := st
  simp only at hphase
  subst hphase
  obtain ⟨stack, rfl⟩ := List.head?_eq_some_iff.mp hf
  obtain ⟨hempty, hpassed⟩ := I.top_ready trivial
  rw [F.missed_eq I.flow hu, lost_nil hempty hpassed, reaching_nil]

/-- `engine::run` delivers everything if and only if no turn of it loses a record that would have
come to the split. -/
theorem split_streams_deliver [Fintype ι]
    (F : Fanout G split upper streams Upstream up down) (hO : FindOutputs G outputs)
    (hlen : ((up upper).denote id).length < 2 ^ 31) :
    Delivers G outputs streams ((up upper).denote id)
        (fun o => (down o).denote fun _ => (up upper).denote id) ↔
      (up upper).Lossless (fun _ => true) ∧ ∀ n st, run G outputs n = .ok st →
        LosesNothing G upper Upstream (fun v => (up v).size) st := by
  obtain ⟨rank, N, -⟩ := F.network
  have hsub := (up upper).denote_sublist delivered_sublist
  have hfull : (up upper).denote delivered = (up upper).denote id ↔
      (up upper).Lossless fun _ => true := by
    rw [← Pipe.denote_delivered_iff (fun _ => true) (up upper)]
    simp only [List.filter_true]
  obtain ⟨L, hL, hstreams, hout⟩ := F.solves (hsub.length_le.trans_lt hlen)
  have : Nonempty ι := ⟨split⟩
  have hne := N.outputs_ne_nil hO
  constructor
  · rintro ⟨n, st, hrun, hst, hdata, -⟩
    obtain ⟨r, hr⟩ := List.exists_mem_of_ne_nil streams F.streams_ne
    obtain ⟨st₀, hstart, I₀⟩ := hL.inv (F.discipline hO) hO hne
    have hall : ((up upper).denote id).length ≤ (st.cells r).mData.length := by
      rw [← (hdata r hr).1, Cell.handedOn]
      exact (List.take_sublist _ _).length_le
    have hmax := F.stream_length_le hO hr I₀ (by simpa [run, hstart] using hrun)
    rw [hstreams r hr] at hmax
    refine ⟨hfull.mp (hsub.eq_of_length_le (hall.trans hmax)), fun m st' hrun' => ?_⟩
    refine F.losesNothing_of_length hO hr hstart I₀ hrun hst ?_ hrun'
    rw [hstreams r hr]
    exact hsub.length_le.trans hall
  · rintro ⟨hsource, hloses⟩
    obtain ⟨n, st, hrun, hst, hvalues, hdata⟩ := run_delivers N (F.discipline hO) hO hne hL
      fun n st rest hrun I => F.safe_of_losesNothing I (hloses n st hrun)
    rw [hfull.mpr hsource] at hstreams hout
    refine ⟨n, st, hrun, hst, ?_, ?_⟩
    · intro r hr
      obtain ⟨hd, hhas, hle⟩ := hdata r split ((F.stream_iff r split).mpr ⟨hr, rfl⟩)
      refine ⟨?_, hhas⟩
      rw [Cell.handedOn, hd, hstreams r hr] at *
      exact List.take_of_length_le (hstreams r hr ▸ hle)
    · intro o ho
      obtain ⟨u, hG⟩ := (F.output o).mp ((hO.2 o).mp ho)
      rw [hvalues o u hG, hout o u hG]

end Delivery

section Instances

/-- A source that is split into a branch without and a branch with a filter, joined again. -/
def joinedBranches : Fin 7 → Functor (Fin 7) ℕ
  | 0 => .rawData [1, 2, 3]
  | 1 => .split 0 [2, 3]
  | 2 => .splitStream 1
  | 3 => .splitStream 1
  | 4 => .filter 3 fun x => x % 2 = 0
  | 5 => .concat 2 [4]
  | 6 => .memoryOutput 5

def joinedPipe : Fin 7 → Pipe (Fin 7) ℕ
  | 2 => .source 2
  | 3 => .source 3
  | 4 => .filter (fun x => x % 2 = 0) (.source 3)
  | _ => .concat (.source 2) [.filter (fun x => x % 2 = 0) (.source 3)]

/-- A concat, a split and two branches, the second one with a filter. -/
def unevenBranches : Fin 8 → Functor (Fin 8) ℕ
  | 0 => .rawData [0, 1]
  | 1 => .concat 0 []
  | 2 => .split 1 [3, 4]
  | 3 => .splitStream 2
  | 4 => .splitStream 2
  | 5 => .filter 4 fun _ => true
  | 6 => .memoryOutput 3
  | 7 => .memoryOutput 5

def unevenUp : Fin 8 → Pipe (List ℕ) ℕ
  | 0 => .source [0, 1]
  | _ => .concat (.source [0, 1]) []

def unevenPipe : Fin 8 → Pipe (Fin 8) ℕ
  | 3 => .source 3
  | 6 => .source 3
  | 4 => .source 4
  | _ => .filter (fun _ => true) (.source 4)

lemma joinedBranches_fanout :
    Fanout joinedBranches 1 0 [2, 3] (· = 0) (fun _ => .source [1, 2, 3]) joinedPipe where
  split_eq := rfl
  streams_ne := by simp
  streams_nodup := by decide
  stream_iff := by
    intro r s
    fin_cases r <;> simp [joinedBranches, eq_comm]
  upper_upstream := rfl
  split_below := by decide
  upstream := by
    rintro v rfl
    rfl
  downstream := by
    intro v hv hs
    fin_cases v <;> simp_all [joinedBranches, joinedPipe]
  nodup := by decide
  disjoint := by
    have h : ∀ c f g, c ∈ (joinedBranches f).predecessors →
        c ∈ (joinedBranches g).predecessors → f = g ∨ c = 1 := by decide
    exact fun {c f g} => h c f g
  output := by
    intro v
    fin_cases v <;> simp [IsOutput, joinedBranches, Fin.forall_fin_succ, Functor.predecessors]

/-- Two branches of the same depth below a concat. -/
def evenBranches : Fin 7 → Functor (Fin 7) ℕ
  | 0 => .rawData [0, 1]
  | 1 => .concat 0 []
  | 2 => .split 1 [3, 4]
  | 3 => .splitStream 2
  | 4 => .splitStream 2
  | 5 => .memoryOutput 3
  | 6 => .memoryOutput 4

def evenUp : Fin 7 → Pipe (List ℕ) ℕ
  | 0 => .source [0, 1]
  | _ => .concat (.source [0, 1]) []

def evenPipe : Fin 7 → Pipe (Fin 7) ℕ
  | 3 => .source 3
  | 5 => .source 3
  | _ => .source 4

lemma evenBranches_fanout : Fanout evenBranches 2 1 [3, 4] (· ≤ 1) evenUp evenPipe where
  split_eq := rfl
  streams_ne := by simp
  streams_nodup := by decide
  stream_iff := by
    intro r s
    fin_cases r <;> simp [evenBranches, eq_comm]
  upper_upstream := le_rfl
  split_below := by decide
  upstream := by
    intro v hv
    fin_cases v <;> simp_all [evenBranches, evenUp]
  downstream := by
    intro v hv hs
    fin_cases v <;> simp_all [evenBranches, evenPipe]
  nodup := by decide
  disjoint := by
    have h : ∀ c f g, c ∈ (evenBranches f).predecessors →
        c ∈ (evenBranches g).predecessors → f = g ∨ c = 2 := by decide
    exact fun {c f g} => h c f g
  output := by
    intro v
    fin_cases v <;> simp [IsOutput, evenBranches, Fin.forall_fin_succ, Functor.predecessors]

def evenOrder : Fin 7 → ℕ
  | 0 => 6
  | 1 => 5
  | 2 => 4
  | 3 => 2
  | 4 => 3
  | 5 => 0
  | 6 => 1

lemma evenBranches_breadthFirst : BreadthFirst evenBranches [5, 6] evenOrder where
  outputs_sorted := by decide
  outputs_first := by
    have h : ∀ o v, IsOutput evenBranches o → ¬IsOutput evenBranches v →
        evenOrder o < evenOrder v := by decide +kernel
    exact fun {o v} => h o v
  consumer_first := by
    have h : ∀ f c, c ∈ (evenBranches f).predecessors →
        evenOrder f < evenOrder c := by decide
    exact fun {f c} => h f c
  inputs_sorted := by decide
  inputs_later := by
    have h : ∀ f g, evenOrder f < evenOrder g →
        ∀ c ∈ (evenBranches f).predecessors, ∀ d ∈ (evenBranches g).predecessors,
          evenOrder c < evenOrder d ∨ c = d := by decide
    exact fun {f g c d} hlt hc hd => h f g hlt c hc d hd

/-- A filter and a concat above two branches of different depths: the split and the concat stand
on the stack twice. -/
def filteredBranches : Fin 10 → Functor (Fin 10) ℕ
  | 0 => .rawData [0, 1, 2]
  | 1 => .filter 0 fun _ => true
  | 2 => .concat 1 []
  | 3 => .split 2 [4, 5]
  | 4 => .splitStream 3
  | 5 => .splitStream 3
  | 6 => .filter 5 fun x => x % 2 = 0
  | 7 => .filter 6 fun _ => true
  | 8 => .memoryOutput 4
  | 9 => .memoryOutput 7

def filteredUp : Fin 10 → Pipe (List ℕ) ℕ
  | 0 => .source [0, 1, 2]
  | 1 => .filter (fun _ => true) (.source [0, 1, 2])
  | _ => .concat (.filter (fun _ => true) (.source [0, 1, 2])) []

def filteredPipe : Fin 10 → Pipe (Fin 10) ℕ
  | 4 => .source 4
  | 8 => .source 4
  | 5 => .source 5
  | 6 => .filter (fun x => x % 2 = 0) (.source 5)
  | _ => .filter (fun _ => true) (.filter (fun x => x % 2 = 0) (.source 5))

lemma filteredBranches_fanout :
    Fanout filteredBranches 3 2 [4, 5] (· ≤ 2) filteredUp filteredPipe where
  split_eq := rfl
  streams_ne := by simp
  streams_nodup := by decide
  stream_iff := by
    intro r s
    fin_cases r <;> simp [filteredBranches, eq_comm]
  upper_upstream := le_rfl
  split_below := by decide
  upstream := by
    intro v hv
    fin_cases v <;> simp_all [filteredBranches, filteredUp]
  downstream := by
    intro v hv hs
    fin_cases v <;> simp_all [filteredBranches, filteredPipe]
  nodup := by decide
  disjoint := by
    have h : ∀ c f g, c ∈ (filteredBranches f).predecessors →
        c ∈ (filteredBranches g).predecessors → f = g ∨ c = 3 := by decide
    exact fun {c f g} => h c f g
  output := by
    intro v
    fin_cases v <;> simp [IsOutput, filteredBranches, Fin.forall_fin_succ, Functor.predecessors]

lemma filteredBranches_lose_nothing (n : ℕ) (st : State (Fin 10) ℕ)
    (hrun : run filteredBranches [8, 9] n = .ok st) :
    LosesNothing filteredBranches 2 (· ≤ 2) (fun v => (filteredUp v).size) st := by
  have hend : ((run filteredBranches [8, 9] 80).toOption.any
      fun st => st.phase = .finished) = true := by
    decide +kernel
  have hcheck : ∀ n < 80, ((run filteredBranches [8, 9] n).toOption.all fun st => decide
      (LosesNothing filteredBranches 2 (· ≤ 2) (fun v => (filteredUp v).size) st)) = true := by
    decide +kernel
  by_cases hn : n < 80
  · simpa [hrun, Except.toOption] using hcheck n hn
  · cases hlast : run filteredBranches [8, 9] 80 with
    | error e => simp [hlast, Except.toOption] at hend
    | ok last =>
      have hfin : last.phase = .finished := by simpa [hlast, Except.toOption] using hend
      rw [show n = 80 + (n - 80) by omega, run_add hlast, runSteps_finished hfin,
        Except.ok.injEq] at hrun
      rintro f - hphase
      rw [← hrun, hfin] at hphase
      exact absurd hphase (by simp)

theorem branches_deliver :
    Delivers joinedBranches [6] [2, 3] [1, 2, 3] (fun _ => [1, 2, 3, 2]) ∧
      Delivers evenBranches [5, 6] [3, 4] [0, 1] (fun _ => [0, 1]) ∧
      Delivers filteredBranches [8, 9] [4, 5] [0, 1, 2]
        fun o => if o = 8 then [0, 1, 2] else [0, 2] := by
  refine ⟨?_, ?_, ?_⟩
  · have hO : FindOutputs joinedBranches [6] := by decide
    obtain ⟨n, st, hrun, hst, hstreams, hvalues⟩ := (split_streams_deliver joinedBranches_fanout hO
      (by simp [Pipe.denote])).mpr ⟨lossless_source (by simp), fun n st =>
        joinedBranches_fanout.loses_nothing hO (by decide)
          (Or.inl fun v hv u added => by simp [hv, joinedBranches])⟩
    refine ⟨n, st, hrun, hst, hstreams, fun o ho => ?_⟩
    rw [hvalues o ho, List.mem_singleton.mp ho]
    decide
  · have hO : FindOutputs evenBranches [5, 6] := by decide
    have hsource : (evenUp 1).Lossless fun _ => true := by
      simp only [evenUp]
      rw [Pipe.Lossless, AllLossless]
      exact ⟨lossless_source (by simp), trivial⟩
    obtain ⟨n, st, hrun, hst, hstreams, hvalues⟩ := (split_streams_deliver evenBranches_fanout hO
      (by decide)).mpr ⟨hsource, fun n st => evenBranches_fanout.loses_nothing hO (by decide)
        (Or.inr ⟨_, evenBranches_breadthFirst⟩)⟩
    refine ⟨n, st, hrun, hst, hstreams, fun o ho => ?_⟩
    rw [hvalues o ho]
    fin_cases ho <;> rfl
  · have hO : FindOutputs filteredBranches [8, 9] := by decide
    have hsource : (filteredUp 2).Lossless fun _ => true := by
      simp only [filteredUp]
      rw [Pipe.Lossless, Pipe.Lossless, AllLossless]
      exact ⟨lossless_source (by simp), trivial⟩
    obtain ⟨n, st, hrun, hst, hstreams, hvalues⟩ := (split_streams_deliver filteredBranches_fanout
      hO (by decide)).mpr ⟨hsource, filteredBranches_lose_nothing⟩
    refine ⟨n, st, hrun, hst, hstreams, fun o ho => ?_⟩
    rw [hvalues o ho]
    fin_cases ho <;> rfl

lemma unevenBranches_fanout :
    Fanout unevenBranches 2 1 [3, 4] (· ≤ 1) unevenUp unevenPipe where
  split_eq := rfl
  streams_ne := by simp
  streams_nodup := by decide
  stream_iff := by
    intro r s
    fin_cases r <;> simp [unevenBranches, eq_comm]
  upper_upstream := le_rfl
  split_below := by decide
  upstream := by
    intro v hv
    fin_cases v <;> simp_all [unevenBranches, unevenUp]
  downstream := by
    intro v hv hs
    fin_cases v <;> simp_all [unevenBranches, unevenPipe]
  nodup := by decide
  disjoint := by
    have h : ∀ c f g, c ∈ (unevenBranches f).predecessors →
        c ∈ (unevenBranches g).predecessors → f = g ∨ c = 2 := by decide
    exact fun {c f g} => h c f g
  output := by
    intro v
    fin_cases v <;> simp [IsOutput, unevenBranches, Fin.forall_fin_succ, Functor.predecessors]

/-- The search reaches the split through the first stream before it reaches the second one, and
the concat skips its only input. -/
theorem uneven_branches_lose_a_record :
    Fanout unevenBranches 2 1 [3, 4] (· ≤ 1) unevenUp unevenPipe ∧
      FindOutputs unevenBranches [6, 7] ∧ (unevenUp 1).denote id = [0, 1] ∧
      ¬Delivers unevenBranches [6, 7] [3, 4] ((unevenUp 1).denote id)
        fun o => (unevenPipe o).denote fun _ => (unevenUp 1).denote id := by
  refine ⟨unevenBranches_fanout, by decide, by decide, ?_⟩
  rintro ⟨n, st, hrun, hst, -, hvalues⟩
  have hend : (run unevenBranches [6, 7] 33).toOption.map
      (fun st => (st.phase, (st.cells 6).mData)) = some (Phase.finished, [0]) := by
    decide +kernel
  cases hlast : run unevenBranches [6, 7] 33 with
  | error e => simp [hlast, Except.toOption] at hend
  | ok last =>
    simp only [hlast, Except.toOption, Option.map_some, Option.some.injEq, Prod.mk.injEq] at hend
    have heq := run_unique hrun hst hlast hend.1
    have h6 := hvalues 6 (by simp)
    rw [heq, hend.2] at h6
    exact absurd h6 (by decide)

end Instances

end PrivacyComputing.Hpda
