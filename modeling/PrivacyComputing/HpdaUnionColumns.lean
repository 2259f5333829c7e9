import PrivacyComputing.HpdaSetRows

/-! The columns of the union rows. A row copies only the columns of the stream it is taken from
into the output record, so its other columns are left from the rows before. -/
namespace PrivacyComputing.Hpda.OrderedSets
open OrderedStreams

universe u

variable {Col : Type u} {V : Col → Type u} {CT : Type u} [LinearOrder CT] {k : ℕ}

section Order
variable (T : UpperStreams k V CT)

/-- The first `n` records of the union: of the heads with the least key the one of the first
stream, then the records behind the heads with this key. -/
def orderFrom : ℕ → (Fin k → List (Record V)) → List (Fin k × Record V)
  | 0, _ => []
  | n + 1, L =>
    match lowest T (Star.firsts L) with
    | none => []
    | some (i, x) => (i, x) :: orderFrom n (advance T.key L (T.key i x))

/-- All records of the union, each with its stream. -/
def order (U : Fin k → Star.UpperStream (Record V)) : List (Fin k × Record V) :=
  orderFrom T (∑ i, (U i).records.length) fun i => (U i).records

variable {T} {L : Fin k → List (Record V)} {qs : List CT} {ps : List (Fin k → Option (Record V))}

lemma orderFrom_eq (hm : Merges T.key L qs ps) {n : ℕ} (hn : ∑ i, (L i).length ≤ n) :
    orderFrom T n L = ps.filterMap (lowest T) := by
  induction hm generalizing n with
  | @nil L empty =>
    cases n with
    | zero => rfl
    | succ n =>
      have hnone : lowest T (Star.firsts L) = none := by
        rw [lowest_none_iff]
        intro i
        unfold Star.firsts
        rw [empty i]
        rfl
      rw [orderFrom, hnone]
      rfl
  | @cons L q qs ps least rest ih =>
    have hlt := least.length_advance_lt
    cases n with
    | zero => omega
    | succ n =>
      obtain ⟨i, x, hfirsts, hpresent, hkey⟩ := lowest_present T least
      rw [orderFrom, hfirsts, List.filterMap_cons_some hpresent]
      dsimp only
      rw [hkey, ih (by omega)]

/-- For streams with ascending keys the order is that of the keys, and a record is in it when no
stream before its own has the key. -/
theorem order_of_ascending (U : Fin k → Star.UpperStream (Record V))
    (h : Ascending T.key fun i => (U i).records) :
    (order T U).Pairwise (fun p p' => T.key p.1 p.2 < T.key p'.1 p'.2) ∧
      ∀ i x, (i, x) ∈ order T U ↔
        x ∈ (U i).records ∧ ∀ j < i, ∀ y ∈ (U j).records, T.key j y ≠ T.key i x := by
  obtain ⟨qs, ps, hm⟩ := merges_exists T.key fun i => (U i).records
  have horder : order T U =
      qs.filterMap fun q => lowest T (record T.key (fun i => (U i).records) q) := by
    rw [order, orderFrom_eq hm le_rfl, hm.eq_map_record h, List.filterMap_map]
    rfl
  rw [horder]
  constructor
  · refine (hm.ascending h).filterMap _ ?_
    rintro q q' hlt ⟨i, x⟩ hx ⟨j, y⟩ hy
    rw [((lowest_record_iff h i x).mp hx).1.2, ((lowest_record_iff h j y).mp hy).1.2]
    exact hlt
  · intro i x
    rw [List.mem_filterMap]
    constructor
    · rintro ⟨q, -, hx⟩
      obtain ⟨⟨hmem, rfl⟩, hfirst⟩ := (lowest_record_iff h i x).mp hx
      exact ⟨hmem, hfirst⟩
    · rintro ⟨hmem, hfirst⟩
      exact ⟨T.key i x, (hm.mem_iff h).mpr ⟨i, x, hmem, rfl⟩,
        (lowest_record_iff h i x).mpr ⟨⟨hmem, rfl⟩, hfirst⟩⟩

end Order

section Columns
variable [DecidableEq Col] (T : UpperStreams k V CT)

/-- The one output record after each record of the union. -/
def writeAll : List (Fin k × Record V) → Record V → List (Record V)
  | [], _ => []
  | p :: ps, mData =>
    copy (T.columns p.1) mData p.2 :: writeAll ps (copy (T.columns p.1) mData p.2)

lemma rowsFrom_union (ps : List (Fin k → Option (Record V))) (mData : Record V) :
    rowsFrom (ps.map (unionFill T)) mData = writeAll T (ps.filterMap (lowest T)) mData := by
  induction ps generalizing mData with
  | nil => rfl
  | cons p ps ih =>
    rw [List.map_cons, unionFill]
    cases h : lowest T p with
    | none =>
      rw [List.filterMap_cons_none h]
      exact ih mData
    | some least =>
      rw [List.filterMap_cons_some h]
      exact congrArg _ (ih _)

variable [∀ c, Inhabited (V c)]

/-- A run of the engine leaves the output record after each record of the union. -/
theorem emitted_union (hk : 2 ≤ k) (U : Fin k → Star.UpperStream (Record V))
    (rows : List (Record V)) : Star.Emitted U (operator (unionProcess T)) rows ↔
      rows = writeAll T (order T U) fun _ => default := by
  obtain ⟨qs, ps, hm⟩ := merges_exists T.key fun i => (U i).records
  have hemits := (rounds_union T hk).emits hm fun _ => default
  rw [rowsFrom_union, ← orderFrom_eq hm le_rfl] at hemits
  exact Star.emitted_iff (by omega) hemits rows

/-- A column has the value of the record that the row is taken from, or the default. -/
def FromRecord (p : Fin k × Record V) (row : Record V) : Prop :=
  ∀ c, (c ∈ T.columns p.1 ∧ row c = p.2 c) ∨ row c = default

def NoLeak (U : Fin k → Star.UpperStream (Record V)) : Prop :=
  ∃ rows, Star.Emitted U (operator (unionProcess T)) rows ∧
    List.Forall₂ (FromRecord T) (order T U) rows

/-- The next record sets every column in which this one is not the default. -/
def Covered (p p' : Fin k × Record V) : Prop :=
  ∀ c ∈ T.columns p.1, c ∉ T.columns p'.1 → p.2 c = default

variable {T} {p p' : Fin k × Record V} {mData : Record V}

omit [LinearOrder CT] in
lemma fromRecord_copy_iff : FromRecord T p (copy (T.columns p.1) mData p.2) ↔
    ∀ c, c ∉ T.columns p.1 → mData c = default := by
  unfold FromRecord
  refine forall_congr' ?_
  intro c
  rw [copy_apply]
  by_cases hc : c ∈ T.columns p.1
  · simp [hc]
  · simp [hc]

omit [LinearOrder CT] in
lemma covered_iff (h : ∀ c, c ∉ T.columns p.1 → mData c = default) :
    Covered T p p' ↔
      ∀ c, c ∉ T.columns p'.1 → copy (T.columns p.1) mData p.2 c = default := by
  unfold Covered
  constructor
  · intro hcovered c hc'
    rw [copy_apply]
    split_ifs with hc
    · exact hcovered c hc hc'
    · exact h c hc
  · intro hrow c hc hc'
    have hdefault := hrow c hc'
    rw [copy_apply, if_pos hc] at hdefault
    exact hdefault

omit [LinearOrder CT] in
/-- What a row leaves behind is seen in the next row, if at all. -/
lemma forall₂_writeAll_iff {ps : List (Fin k × Record V)}
    (h : ∀ c, c ∉ T.columns p.1 → mData c = default) :
    List.Forall₂ (FromRecord T) (p :: ps) (writeAll T (p :: ps) mData) ↔
      (p :: ps).IsChain (Covered T) := by
  rw [writeAll, List.forall₂_cons, fromRecord_copy_iff]
  induction ps generalizing p mData with
  | nil => simpa [writeAll] using h
  | cons p' ps ih =>
    rw [writeAll, List.forall₂_cons, fromRecord_copy_iff, List.isChain_cons_cons, covered_iff h,
      and_iff_right h]
    refine and_congr_right ?_
    intro hnext
    have hrest := ih hnext
    rw [and_iff_right hnext] at hrest
    exact hrest

/-- The rows are free of other records' values when every record of the union is the default in
the columns that its successor's stream does not have. -/
theorem noLeak_iff (T : UpperStreams k V CT) (hk : 2 ≤ k)
    (U : Fin k → Star.UpperStream (Record V)) :
    NoLeak T U ↔ (order T U).IsChain (Covered T) := by
  unfold NoLeak
  simp only [emitted_union T hk U, exists_eq_left]
  cases order T U with
  | nil => simp [writeAll]
  | cons p ps => exact forall₂_writeAll_iff fun _ _ => rfl

theorem noLeak_iff_demo :
    NoLeak demoStreams demoInputs ↔ (order demoStreams demoInputs).IsChain (Covered demoStreams) :=
  noLeak_iff demoStreams (by decide) demoInputs

/-- The record with key 2 has no column 1; its row has the value of the record before. -/
theorem value_leaks :
    (∃ rows, Star.Emitted demoInputs (operator (unionProcess demoStreams)) rows ∧
      rows.map (fun row => (row 0, row 1, row 2)) = [(1, 10, 0), (2, 10, 20), (3, 30, 20)]) ∧
    ¬ NoLeak demoStreams demoInputs := by
  have hrun := (emitted_union demoStreams (by decide) demoInputs _).mpr rfl
  refine ⟨⟨_, hrun, by decide⟩, ?_⟩
  rintro ⟨rows, hrows, hall⟩
  have horder : order demoStreams demoInputs =
      [(0, demoRow 1 10 0), (1, demoRow 2 0 20), (0, demoRow 3 30 0)] := rfl
  rw [hrows.unique hrun, horder] at hall
  simp only [writeAll, List.forall₂_cons] at hall
  obtain ⟨-, hsecond, -⟩ := hall
  rcases hsecond 1 with ⟨hcolumn, -⟩ | hdefault
  · exact absurd hcolumn (by decide)
  · exact absurd hdefault (by decide)

end Columns
end PrivacyComputing.Hpda.OrderedSets
