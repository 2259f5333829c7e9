import Mathlib.Algebra.Ring.Int.Defs
import PrivacyComputing.HpdaGroupby

/-! What `groupby` puts out with the aggregators sum, count, avg, max and min, one row for each
maximal run of equal keys. -/
namespace PrivacyComputing.Hpda.Groupby
open ListRuns

universe u

section Aggregates
variable {β γ : Type u} {A : Aggregator β γ} {f : List β → γ}

lemma aggregates_eq {rs : List (List β)} (a : A.State)
    (h : ∀ r ∈ rs, ∀ s, A.output (A.endGroup (r.foldl A.group (A.beginGroup s))) = f r) :
    aggregates A a rs = rs.map f := by
  induction rs generalizing a with
  | nil => rfl
  | cons r rs ih =>
    rw [aggregates, h r List.mem_cons_self, List.map_cons,
      ih _ fun r hr => h r (List.mem_cons_of_mem _ hr)]

lemma foldl_accumulated (add : γ → β → γ) (s : Accumulated γ) (r : List β) :
    (r.foldl (fun s x => (⟨add s.mData x, true⟩ : Accumulated γ)) s).mData =
      r.foldl add s.mData := by
  induction r generalizing s with
  | nil => rfl
  | cons x r ih => exact ih _

lemma accumulator_output (zero : γ) (add : γ → β → γ) (s : Accumulated γ) (r : List β) :
    (accumulator zero add).output ((accumulator zero add).endGroup
      (r.foldl (accumulator zero add).group ((accumulator zero add).beginGroup s))) =
      r.foldl add zero :=
  foldl_accumulated add { s with mData := zero } r

variable {κ : Type u}

lemma forall₂_outputs {P : γ → List β → Prop} {f : List β → γ} {rows : List (Row κ γ)}
    {rs : List (List β)} (h : rows.map Row.output = rs.map f) :
    List.Forall₂ (fun row r => P row.output r) rows rs ↔ ∀ r ∈ rs, P (f r) r := by
  rw [← List.forall₂_map_left_iff (R := P) (f := Row.output), h, List.forall₂_map_left_iff,
    List.forall₂_same]

variable [DecidableEq κ] [Inhabited κ] [Inhabited γ] (key : β → κ)

/-- One row for each run, with what the aggregator makes of the run. -/
lemma emitted_outputs (U : Star.UpperStream β)
    (hends : ∀ r ∈ runs key U.records, ∀ s,
      A.grouping (A.endGroup (r.foldl A.group (A.beginGroup s))) = false)
    (h : ∀ r ∈ runs key U.records, ∀ s,
      A.output (A.endGroup (r.foldl A.group (A.beginGroup s))) = f r) :
    Star.Emitted (fun _ => U) (operator key A) (rowsOf key A (runs key U.records)) ∧
      (rowsOf key A (runs key U.records)).map Row.output = (runs key U.records).map f := by
  refine ⟨(emitted_rows U hends _).mpr rfl, ?_⟩
  rw [rowsOf_output, aggregates_eq A.start h]

end Aggregates

section Unsigned
variable {β κ : Type} [DecidableEq κ] [Inhabited κ] {v : ℕ} (w : ℕ) (key : β → κ)
  (value : β → BitVec v)

/-- The sum of the values, modulo the width of the output. -/
def total (r : List β) : BitVec w := BitVec.ofNat w (r.map fun x => (value x).toNat).sum

lemma foldl_sum (m : BitVec w) (r : List β) :
    r.foldl (fun m x => m + (value x).setWidth w) m = m + total w value r := by
  induction r generalizing m with
  | nil => simp [total]
  | cons x r ih =>
    rw [List.foldl_cons, ih]
    unfold total
    rw [List.map_cons, List.sum_cons, BitVec.ofNat_add, BitVec.ofNat_toNat, BitVec.add_assoc]

lemma foldl_count (m : BitVec w) (r : List β) :
    r.foldl (fun m _ => m + 1) m = m + BitVec.ofNat w r.length := by
  induction r generalizing m with
  | nil => simp
  | cons x r ih =>
    rw [List.foldl_cons, ih, List.length_cons, Nat.add_comm r.length 1, BitVec.ofNat_add,
      BitVec.add_assoc]
    rfl

lemma avg_output (hw : w ≤ 64) (s : Averaged w) {r : List β} (hr : r ≠ [])
    (hlt : r.length < 2 ^ 64) :
    ((r.foldl (Averaged.group value) s.beginGroup).endGroup).mData =
      BitVec.ofNat w ((total w value r).toNat / r.length) := by
  have hcount := Averaged.mCount_ne_zero value s hr hlt
  obtain ⟨hdata, hlength⟩ := Averaged.foldl_group value s.beginGroup r
  unfold Averaged.endGroup
  rw [if_neg hcount]
  dsimp only
  rw [hdata, hlength, foldl_sum]
  have htotal : (total w value r).toNat < 18446744073709551616 :=
    lt_of_lt_of_le (BitVec.isLt _) (Nat.pow_le_pow_right (by decide) hw)
  have hsize : r.length < 18446744073709551616 := hlt
  apply BitVec.eq_of_toNat_eq
  simp [Averaged.beginGroup, Nat.mod_eq_of_lt hsize, Nat.mod_eq_of_lt htotal]

/-- One row for each run: its sum modulo the width of the output, its length modulo this width,
and the quotient of the wrapped sum by the length. -/
theorem unsigned_aggregates (hw : w ≤ 64) (U : Star.UpperStream β) :
    (∃ rows, Star.Emitted (fun _ => U) (operator key (sum w value)) rows ∧
      rows.map Row.output = (runs key U.records).map (total w value)) ∧
    (∃ rows, Star.Emitted (fun _ => U) (operator key (count β w)) rows ∧
      rows.map Row.output = (runs key U.records).map fun r => BitVec.ofNat w r.length) ∧
    (U.records.length < 2 ^ 64 →
      ∃ rows, Star.Emitted (fun _ => U) (operator key (avg w value)) rows ∧
        rows.map Row.output = (runs key U.records).map fun r =>
          BitVec.ofNat w ((total w value r).toNat / r.length)) := by
  refine ⟨⟨_, emitted_outputs key U (fun _ _ _ => rfl) ?_⟩,
    ⟨_, emitted_outputs key U (fun _ _ _ => rfl) ?_⟩, fun hlt =>
    ⟨_, emitted_outputs key U (ends_of_length hlt) ?_⟩⟩
  · intro r _ s
    refine (accumulator_output _ _ s r).trans ?_
    rw [foldl_sum]
    simp
  · intro r _ s
    refine (accumulator_output _ _ s r).trans ?_
    rw [foldl_count]
    simp
  · intro r hr s
    exact avg_output w value hw s (ne_nil_of_mem_runs hr)
      (lt_of_le_of_lt (length_le_of_mem_runs hr) hlt)

theorem unsigned_aggregates_twoRuns :
    (∃ rows, Star.Emitted (fun _ => twoRuns) (operator Prod.fst (sum 8 Prod.snd)) rows ∧
      rows.map Row.output = (runs Prod.fst twoRuns.records).map (total 8 Prod.snd)) ∧
    (∃ rows, Star.Emitted (fun _ => twoRuns) (operator Prod.fst (count (ℕ × BitVec 64) 8)) rows ∧
      rows.map Row.output = (runs Prod.fst twoRuns.records).map fun r =>
        BitVec.ofNat 8 r.length) ∧
    ∃ rows, Star.Emitted (fun _ => twoRuns) (operator Prod.fst (avg 8 Prod.snd)) rows ∧
      rows.map Row.output = (runs Prod.fst twoRuns.records).map fun r =>
        BitVec.ofNat 8 ((total 8 Prod.snd r).toNat / r.length) := by
  obtain ⟨hsum, hcount, havg⟩ := unsigned_aggregates 8 Prod.fst Prod.snd (by decide) twoRuns
  exact ⟨hsum, hcount, havg (by decide)⟩

end Unsigned

section Extremes
variable {β κ γ : Type u} [DecidableEq κ] [Inhabited κ] [LinearOrder γ] [Zero γ] [Inhabited γ]
  (key : β → κ) (value : β → γ)

/-- Each row holds the greatest value of its run. -/
def HoldsMax (U : Star.UpperStream β) : Prop :=
  ∃ rows, Star.Emitted (fun _ => U) (operator key (max value)) rows ∧
    List.Forall₂ (fun row r => IsGreatest {v | ∃ x ∈ r, value x = v} row.output) rows
      (runs key U.records)

/-- Each row holds the least value of its run. -/
def HoldsMin (U : Star.UpperStream β) : Prop :=
  ∃ rows, Star.Emitted (fun _ => U) (operator key (min value)) rows ∧
    List.Forall₂ (fun row r => IsLeast {v | ∃ x ∈ r, value x = v} row.output) rows
      (runs key U.records)

variable {key}

omit [LinearOrder γ] in
lemma accumulator_holds_iff (add : γ → β → γ) (P : γ → List β → Prop) (U : Star.UpperStream β) :
    (∃ rows, Star.Emitted (fun _ => U) (operator key (accumulator 0 add)) rows ∧
      List.Forall₂ (fun row r => P row.output r) rows (runs key U.records)) ↔
      ∀ r ∈ runs key U.records, P (r.foldl add 0) r := by
  have hemitted := emitted_rows (A := accumulator 0 add) U
    fun r (_ : r ∈ runs key U.records) _ => rfl
  obtain ⟨-, houtput⟩ := emitted_outputs (A := accumulator 0 add) key U (fun _ _ _ => rfl)
    fun r _ s => accumulator_output 0 add s r
  simp only [hemitted, exists_eq_left]
  exact forall₂_outputs houtput

/-- The accumulators start from 0: max is right when every run has a value that is not negative,
min when every run has one that is not positive. -/
theorem extremes_iff (U : Star.UpperStream β) :
    (HoldsMax key value U ↔ ∀ r ∈ runs key U.records, ∃ x ∈ r, 0 ≤ value x) ∧
    (HoldsMin key value U ↔ ∀ r ∈ runs key U.records, ∃ x ∈ r, value x ≤ 0) := by
  constructor
  · refine (accumulator_holds_iff _ (fun m r => IsGreatest {v | ∃ x ∈ r, value x = v} m) U).trans ?_
    simp only [isGreatest_foldl_iff]
  · refine (accumulator_holds_iff _ (fun m r => IsLeast {v | ∃ x ∈ r, value x = v} m) U).trans ?_
    simp only [isLeast_foldl_iff]

/-- One negative record, then one positive record. -/
def signed : Star.UpperStream (ℕ × ℤ) := .rawData [(1, -5), (2, 5)] (by decide)

theorem extremes_are_zero :
    ¬ HoldsMax Prod.fst Prod.snd signed ∧ ¬ HoldsMin Prod.fst Prod.snd signed := by
  constructor
  · intro h
    have hruns := (accumulator_holds_iff _
      (fun m r => IsGreatest {v | ∃ x ∈ r, Prod.snd x = v} m) signed).mp h
    obtain ⟨⟨x, hx, hvalue⟩, -⟩ := hruns [(1, -5)] (by decide)
    rw [List.mem_singleton.mp hx] at hvalue
    exact absurd hvalue (by decide)
  · intro h
    have hruns := (accumulator_holds_iff _
      (fun m r => IsLeast {v | ∃ x ∈ r, Prod.snd x = v} m) signed).mp h
    obtain ⟨⟨x, hx, hvalue⟩, -⟩ := hruns [(2, 5)] (by decide)
    rw [List.mem_singleton.mp hx] at hvalue
    exact absurd hvalue (by decide)

end Extremes
end PrivacyComputing.Hpda.Groupby
