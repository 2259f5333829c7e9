import PrivacyComputing.HpdaSetRounds

/-! The rows of intersection, union and difference over streams with strictly ascending keys: the
keys that they have, in which order, and from which records they are filled. -/
namespace PrivacyComputing.Hpda.OrderedSets
open OrderedStreams

universe u

variable {Col : Type u} {V : Col → Type u} {CT : Type u} [LinearOrder CT] {k : ℕ}

section Rows
variable {T : UpperStreams k V CT} {qs : List CT} {mData : Record V}

omit [LinearOrder CT] in
/-- Rows of rounds with an invariant of the output record. -/
lemma rowsFrom_forall₂ {fill : CT → Option (Record V → Record V)} {I : Record V → Prop}
    {R : CT → Record V → Prop} (hI : I mData)
    (h : ∀ q ∈ qs, ∀ f, fill q = some f → ∀ d, I d → I (f d) ∧ R q (f d)) :
    List.Forall₂ R (qs.filter fun q => (fill q).isSome) (rowsFrom (qs.map fill) mData) := by
  induction qs generalizing mData with
  | nil => exact List.Forall₂.nil
  | cons q qs ih =>
    have hrest := fun q' hq' => h q' (List.mem_cons_of_mem q hq')
    rw [List.map_cons]
    cases hfill : fill q with
    | none =>
      rw [rowsFrom, List.filter_cons, hfill]
      exact ih hI hrest
    | some f =>
      obtain ⟨hI', hR⟩ := h q List.mem_cons_self f hfill mData hI
      rw [rowsFrom, List.filter_cons, hfill]
      exact List.Forall₂.cons hR (ih hI' hrest)

variable [∀ c, Inhabited (V c)]
  {process : Record V → (Fin k → Option (Record V)) → Bool × (Fin k → Bool) × Record V}
  {fill : (Fin k → Option (Record V)) → Option (Record V → Record V)}
  {stop : (Fin k → List (Record V)) → Prop}

/-- The engine over streams with ascending keys: one round for each key. -/
theorem Rounds.emitted (hr : Rounds T process fill stop) (hk : 2 ≤ k)
    (U : Fin k → Star.UpperStream (Record V)) (h : Ascending T.key fun i => (U i).records) :
    ∃ qs : List CT, qs.Pairwise (· < ·) ∧
      (∀ q, q ∈ qs ↔ HasKey T.key (fun i => (U i).records) q) ∧
      ∀ rows, Star.Emitted U (operator process) rows ↔
        rows = rowsFrom (qs.map fun q => fill (record T.key (fun i => (U i).records) q))
          fun _ => default := by
  obtain ⟨qs, ps, hm⟩ := merges_exists T.key fun i => (U i).records
  refine ⟨qs, hm.ascending h, fun q => hm.mem_iff h, ?_⟩
  have hemits := hr.emits hm fun _ => default
  rw [hm.eq_map_record h, List.map_map] at hemits
  exact Star.emitted_iff (by omega) hemits

end Rows

section Demo

def demoRow (a b c : ℕ) : Record fun _ : ℕ => ℕ
  | 0 => a
  | 1 => b
  | 2 => c
  | _ => 0

/-- Both streams have the key column 0, the first one also column 1 and the second one column
2. -/
def demoStreams : UpperStreams 2 (fun _ : ℕ => ℕ) ℕ where
  columns i := if i.val = 0 then [0, 1] else [0, 2]
  key _ x := x 0

def demoInputs (i : Fin 2) : Star.UpperStream (Record fun _ : ℕ => ℕ) :=
  if i.val = 0 then .rawData [demoRow 1 10 0, demoRow 3 30 0] (by decide)
  else .rawData [demoRow 2 0 20, demoRow 3 0 33] (by decide)

lemma demo_ascending : Ascending demoStreams.key fun i => (demoInputs i).records := by
  intro i
  match i with
  | 0 => decide
  | 1 => decide

end Demo

section Intersection
variable [DecidableEq Col] {T : UpperStreams k V CT} {values : Fin k → Record V}
  {mData : Record V} {c : Col}

omit [LinearOrder CT] in
lemma fill_of_not_mem (l : List (Fin k)) (h : ∀ i, c ∉ T.columns i) :
    l.foldl (fun mData i => copy (T.columns i) mData (values i)) mData c = mData c := by
  induction l generalizing mData with
  | nil => rfl
  | cons i l ih => rw [List.foldl_cons, ih, copy_apply, if_neg (h i)]

omit [LinearOrder CT] in
lemma fill_of_last {l : List (Fin k)} (hl : l.Pairwise (· < ·)) {i : Fin k} (hi : i ∈ l)
    (hc : c ∈ T.columns i) (hlast : ∀ j, i < j → c ∉ T.columns j) :
    l.foldl (fun mData i => copy (T.columns i) mData (values i)) mData c = values i c := by
  induction l using List.reverseRecOn with
  | nil => cases hi
  | append_singleton l j ih =>
    obtain ⟨hl, -, hlt⟩ := List.pairwise_append.mp hl
    rw [List.foldl_append, List.foldl_cons, List.foldl_nil, copy_apply]
    rcases List.mem_append.mp hi with hi | hi
    · rw [if_neg (hlast j (hlt i hi j (List.mem_singleton_self j))), ih hl hi]
    · cases List.mem_singleton.mp hi
      rw [if_pos hc]

variable [∀ c, Inhabited (V c)]

/-- A row filled from one record of each stream: a column has the value of the last record that
has it. -/
def Filled (T : UpperStreams k V CT) (values : Fin k → Record V) (row : Record V) : Prop :=
  ∀ c, (∀ i, c ∈ T.columns i → (∀ j, i < j → c ∉ T.columns j) → row c = values i c) ∧
    ((∀ i, c ∉ T.columns i) → row c = default)

omit [LinearOrder CT] in
lemma filled_fillOutput (values : Fin k → Record V)
    (h : ∀ c, (∀ i, c ∉ T.columns i) → mData c = default) :
    Filled T values (fillOutput T values mData) := by
  intro c
  refine ⟨fun i hc hlast => ?_, fun hc => ?_⟩
  · exact fill_of_last (List.pairwise_lt_finRange k) (List.mem_finRange i) hc hlast
  · exact (fill_of_not_mem _ hc).trans (h c hc)

/-- The intersection has one row for each key that occurs in every stream, in ascending order,
filled from the records with this key. -/
theorem intersection_rows (T : UpperStreams k V CT) (hk : 2 ≤ k)
    (U : Fin k → Star.UpperStream (Record V)) (h : Ascending T.key fun i => (U i).records) :
    ∃ qs rows, Star.Emitted U (operator (intersectionProcess T)) rows ∧ qs.Pairwise (· < ·) ∧
      (∀ q, q ∈ qs ↔ ∀ i, ∃ x ∈ (U i).records, T.key i x = q) ∧
      List.Forall₂ (fun q row => ∃ values : Fin k → Record V,
        (∀ i, values i ∈ (U i).records ∧ T.key i (values i) = q) ∧
          Filled T values row) qs rows := by
  obtain ⟨qs, hasc, hmem, hrows⟩ := (rounds_intersection T hk).emitted hk U h
  refine ⟨_, _, (hrows _).mpr rfl, hasc.filter _, ?_,
    rowsFrom_forall₂ (I := fun d => ∀ c, (∀ i, c ∉ T.columns i) → d c = default)
      (fun c _ => rfl) ?_⟩
  · intro q
    rw [List.mem_filter, hmem]
    constructor
    · rintro ⟨-, hsome⟩ i
      cases hi : record T.key (fun i => (U i).records) q i with
      | none =>
        rw [intersectionFill_none hi] at hsome
        cases hsome
      | some x => exact ⟨x, (record_some_iff h).mp hi⟩
    · intro hall
      choose values hvalues using hall
      refine ⟨⟨firstStream hk, _, hvalues _⟩, ?_⟩
      rw [intersectionFill_some fun i => (record_some_iff h).mpr (hvalues i)]
      rfl
  · intro q _ f hf d hd
    have hall : ∀ i, ∃ x, record T.key (fun i => (U i).records) q i = some x := by
      intro i
      cases hi : record T.key (fun i => (U i).records) q i with
      | none =>
        rw [intersectionFill_none hi] at hf
        cases hf
      | some x => exact ⟨x, rfl⟩
    choose values hvalues using hall
    rw [intersectionFill_some hvalues] at hf
    cases hf
    have hfilled := filled_fillOutput values hd
    exact ⟨fun c hc => (hfilled c).2 hc, values, fun i => (record_some_iff h).mp (hvalues i),
      hfilled⟩

theorem intersection_rows_demo :
    ∃ qs rows, Star.Emitted demoInputs (operator (intersectionProcess demoStreams)) rows ∧
      qs.Pairwise (· < ·) ∧
      (∀ q, q ∈ qs ↔ ∀ i, ∃ x ∈ (demoInputs i).records, demoStreams.key i x = q) ∧
      List.Forall₂ (fun q row => ∃ values : Fin 2 → Record fun _ : ℕ => ℕ,
        (∀ i, values i ∈ (demoInputs i).records ∧ demoStreams.key i (values i) = q) ∧
          Filled demoStreams values row) qs rows :=
  intersection_rows demoStreams (by decide) demoInputs demo_ascending

end Intersection

section Union
variable [DecidableEq Col] [∀ c, Inhabited (V c)] {T : UpperStreams k V CT}
  {L : Fin k → List (Record V)} {q : CT}

omit [DecidableEq Col] [∀ c, Inhabited (V c)] in
/-- Of the records with one key the one of the first stream. -/
lemma lowest_record_iff (h : Ascending T.key L) (i : Fin k) (x : Record V) :
    lowest T (record T.key L q) = some (i, x) ↔
      (x ∈ L i ∧ T.key i x = q) ∧ ∀ j < i, ∀ y ∈ L j, T.key j y ≠ q := by
  rw [lowest_some_iff, record_some_iff h]
  refine and_congr_right ?_
  rintro ⟨hx, hkey⟩
  constructor
  · intro hall j hj y hy hyq
    have hlt := (hall j y ((record_some_iff h).mpr ⟨hy, hyq⟩)).2 hj
    rw [hkey, hyq] at hlt
    exact lt_irrefl _ hlt
  · intro hfirst j y hy
    obtain ⟨hy, hyq⟩ := (record_some_iff h).mp hy
    rw [hkey, hyq]
    exact ⟨le_rfl, fun hj => absurd hyq (hfirst j hj y hy)⟩

/-- The union has one row for each key that occurs in a stream, in ascending order, with the
columns of the record of the first stream that has the key. -/
theorem union_rows (T : UpperStreams k V CT) (hk : 2 ≤ k)
    (U : Fin k → Star.UpperStream (Record V)) (h : Ascending T.key fun i => (U i).records) :
    ∃ qs rows, Star.Emitted U (operator (unionProcess T)) rows ∧ qs.Pairwise (· < ·) ∧
      (∀ q, q ∈ qs ↔ ∃ i, ∃ x ∈ (U i).records, T.key i x = q) ∧
      List.Forall₂ (fun q row => ∃ i, ∃ x ∈ (U i).records, T.key i x = q ∧
        (∀ j < i, ∀ y ∈ (U j).records, T.key j y ≠ q) ∧
        ∀ c ∈ T.columns i, row c = x c) qs rows := by
  obtain ⟨qs, hasc, hmem, hrows⟩ := (rounds_union T hk).emitted hk U h
  refine ⟨_, _, (hrows _).mpr rfl, hasc.filter _, ?_,
    rowsFrom_forall₂ (I := fun _ => True) trivial ?_⟩
  · intro q
    rw [List.mem_filter, hmem]
    refine ⟨fun hq => hq.1, fun hq => ⟨hq, ?_⟩⟩
    obtain ⟨i, x, hx, hkey⟩ := hq
    unfold unionFill
    cases hlowest : lowest T (record T.key (fun i => (U i).records) q) with
    | none =>
      have hnone := lowest_none_iff.mp hlowest i
      rw [(record_some_iff h).mpr ⟨hx, hkey⟩] at hnone
      cases hnone
    | some least => rfl
  · intro q _ f hf d _
    unfold unionFill at hf
    cases hlowest : lowest T (record T.key (fun i => (U i).records) q) with
    | none =>
      rw [hlowest] at hf
      cases hf
    | some least =>
      obtain ⟨i, x⟩ := least
      rw [hlowest] at hf
      cases hf
      obtain ⟨⟨hx, hkey⟩, hfirst⟩ := (lowest_record_iff h i x).mp hlowest
      refine ⟨trivial, i, x, hx, hkey, hfirst, ?_⟩
      intro c hc
      dsimp only
      rw [copy_apply, if_pos hc]

theorem union_rows_demo :
    ∃ qs rows, Star.Emitted demoInputs (operator (unionProcess demoStreams)) rows ∧
      qs.Pairwise (· < ·) ∧
      (∀ q, q ∈ qs ↔ ∃ i, ∃ x ∈ (demoInputs i).records, demoStreams.key i x = q) ∧
      List.Forall₂ (fun q row => ∃ i, ∃ x ∈ (demoInputs i).records, demoStreams.key i x = q ∧
        (∀ j < i, ∀ y ∈ (demoInputs j).records, demoStreams.key j y ≠ q) ∧
        ∀ c ∈ demoStreams.columns i, row c = x c) qs rows :=
  union_rows demoStreams (by decide) demoInputs demo_ascending

end Union

section Difference
variable [DecidableEq Col] [∀ c, Inhabited (V c)]

/-- The record with the columns of the output that its stream does not have. -/
def widen (columns : List Col) (x : Record V) : Record V :=
  fun c => if c ∈ columns then x c else default

/-- The record of the first stream with a key that no other stream has. -/
def alone (T : UpperStreams k V CT) (first : Fin k) (L : Fin k → List (Record V)) (q : CT) :
    Option (Record V) :=
  if ∃ i, i ≠ first ∧ (record T.key L q i).isSome then none else record T.key L q first

variable {T : UpperStreams k V CT} {L : Fin k → List (Record V)} {first : Fin k} {q : CT}
  {x : Record V}

omit [DecidableEq Col] [∀ c, Inhabited (V c)] in
lemma alone_some_iff (h : Ascending T.key L) : alone T first L q = some x ↔
    (x ∈ L first ∧ T.key first x = q) ∧ ∀ i, i ≠ first → ∀ y ∈ L i, T.key i y ≠ q := by
  unfold alone
  rw [← record_some_iff h]
  by_cases hothers : ∃ i, i ≠ first ∧ (record T.key L q i).isSome = true
  · rw [if_pos hothers]
    constructor
    · intro hnone
      cases hnone
    · rintro ⟨-, hall⟩
      obtain ⟨i, hi, hsome⟩ := hothers
      obtain ⟨y, hy⟩ := Option.isSome_iff_exists.mp hsome
      obtain ⟨hy, hkey⟩ := (record_some_iff h).mp hy
      exact absurd hkey (hall i hi y hy)
  · rw [if_neg hothers]
    refine ⟨fun hx => ⟨hx, ?_⟩, fun hx => hx.1⟩
    intro i hi y hy hkey
    refine hothers ⟨i, hi, ?_⟩
    rw [(record_some_iff h).mpr ⟨hy, hkey⟩]
    rfl

lemma copy_eq_widen {columns : List Col} {mData : Record V}
    (h : ∀ c, c ∉ columns → mData c = default) (x : Record V) :
    copy columns mData x = widen columns x := by
  funext c
  rw [copy_apply, widen]
  split_ifs with hc
  · rfl
  · exact h c hc

lemma rowsFrom_difference {mData : Record V}
    (h : ∀ c, c ∉ T.columns first → mData c = default) (qs : List CT) :
    rowsFrom (qs.map fun q => differenceFill T first (record T.key L q)) mData =
      (qs.filterMap (alone T first L)).map (widen (T.columns first)) := by
  induction qs generalizing mData with
  | nil => rfl
  | cons q qs ih =>
    have hfill : differenceFill T first (record T.key L q) =
        (alone T first L q).map fun x mData => copy (T.columns first) mData x := by
      unfold differenceFill alone
      split_ifs
      · rfl
      · rfl
    rw [List.map_cons, hfill, List.filterMap_cons]
    cases alone T first L q with
    | none => exact ih h
    | some x =>
      have hwidened : ∀ c, c ∉ T.columns first → widen (T.columns first) x c = default := by
        intro c hc
        rw [widen, if_neg hc]
      dsimp only [Option.map_some, rowsFrom]
      rw [copy_eq_widen h, ih hwidened, List.map_cons]

omit [DecidableEq Col] [∀ c, Inhabited (V c)] in
/-- In the order of the keys, the records that no other stream has stand in their own order. -/
lemma filterMap_alone (h : Ascending T.key L) {qs : List CT} (hasc : qs.Pairwise (· < ·))
    (hmem : ∀ q, q ∈ qs ↔ HasKey T.key L q) :
    qs.filterMap (alone T first L) = (L first).filter fun x =>
      decide (∀ i, i ≠ first → ∀ y ∈ L i, T.key i y ≠ T.key first x) := by
  have hleft : (qs.filterMap (alone T first L)).Pairwise
      fun x y => T.key first x < T.key first y := by
    refine hasc.filterMap _ ?_
    intro q q' hlt x hx y hy
    rw [((alone_some_iff h).mp hx).1.2, ((alone_some_iff h).mp hy).1.2]
    exact hlt
  have hright := (h first).filter fun x =>
    decide (∀ i, i ≠ first → ∀ y ∈ L i, T.key i y ≠ T.key first x)
  refine List.Perm.eq_of_pairwise ?_ hleft hright ?_
  · intro x y _ _ hxy hyx
    exact absurd (hxy.trans hyx) (lt_irrefl _)
  · rw [List.perm_ext_iff_of_nodup (nodup_of_pairwise_lt hleft) (nodup_of_pairwise_lt hright)]
    intro x
    rw [List.mem_filterMap, List.mem_filter, decide_eq_true_eq]
    constructor
    · rintro ⟨q, -, hx⟩
      obtain ⟨⟨hmem, rfl⟩, hall⟩ := (alone_some_iff h).mp hx
      exact ⟨hmem, hall⟩
    · rintro ⟨hx, hall⟩
      exact ⟨T.key first x, (hmem _).mpr ⟨first, x, hx, rfl⟩,
        (alone_some_iff h).mpr ⟨⟨hx, rfl⟩, hall⟩⟩

/-- The difference has one row for each record of the first stream whose key occurs in no other
stream, in their order. -/
theorem difference_rows (T : UpperStreams k V CT) (hk : 2 ≤ k)
    (U : Fin k → Star.UpperStream (Record V)) (h : Ascending T.key fun i => (U i).records)
    (rows : List (Record V)) :
    Star.Emitted U (operator (differenceProcess T)) rows ↔
      rows = ((U (firstStream hk)).records.filter fun x =>
        decide (∀ i, i ≠ firstStream hk → ∀ y ∈ (U i).records,
          T.key i y ≠ T.key (firstStream hk) x)).map (widen (T.columns (firstStream hk))) := by
  obtain ⟨qs, hasc, hmem, hrows⟩ := (rounds_difference T hk).emitted hk U h
  rw [hrows, rowsFrom_difference fun _ _ => rfl, filterMap_alone h hasc hmem]

theorem difference_rows_demo :
    Star.Emitted demoInputs (operator (differenceProcess demoStreams)) [widen [0, 1]
      (demoRow 1 10 0)] :=
  (difference_rows demoStreams (by decide) demoInputs demo_ascending _).mpr rfl

end Difference
end PrivacyComputing.Hpda.OrderedSets
