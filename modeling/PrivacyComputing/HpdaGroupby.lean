import PrivacyComputing.HpdaStarRun
import PrivacyComputing.ListRuns

/-! `groupby` over one upper stream, with an aggregator that keeps its `grouping` flag. The output
record is set for the next group in the call that emits the last one. -/
namespace PrivacyComputing.Hpda.Groupby
open ListRuns

universe u

/-- An aggregator: `grouping` is false at first and after a group, true while records are
grouped. A group that fits a `size_t` is ended by `end_group`. -/
structure Aggregator (β γ : Type u) where
  State : Type u
  start : State
  beginGroup : State → State
  group : State → β → State
  endGroup : State → State
  grouping : State → Bool
  output : State → γ
  grouping_start : grouping start = false
  grouping_group : ∀ s x, grouping (group s x) = true
  grouping_endGroup : ∀ s r, r ≠ [] → r.length < 2 ^ 64 →
    grouping (endGroup (r.foldl group (beginGroup s))) = false

section Aggregators

/-- `m_data` and `m_grouping`. -/
structure Accumulated (γ : Type u) where
  mData : γ
  mGrouping : Bool

def accumulator {β γ : Type u} (zero : γ) (add : γ → β → γ) : Aggregator β γ where
  State := Accumulated γ
  start := ⟨zero, false⟩
  beginGroup s := { s with mData := zero }
  group s x := ⟨add s.mData x, true⟩
  endGroup s := { s with mGrouping := false }
  grouping s := s.mGrouping
  output s := s.mData
  grouping_start := rfl
  grouping_group _ _ := rfl
  grouping_endGroup _ _ _ _ := rfl

variable {β : Type} {v : ℕ} (w : ℕ) (value : β → BitVec v)

def sum : Aggregator β (BitVec w) := accumulator 0 fun m x => m + (value x).setWidth w

def count (β : Type) (w : ℕ) : Aggregator β (BitVec w) := accumulator 0 fun m _ => m + 1

structure Averaged (w : ℕ) where
  mData : BitVec w
  mCount : BitVec 64
  mGrouping : Bool

def Averaged.beginGroup {w : ℕ} (s : Averaged w) : Averaged w := { s with mData := 0, mCount := 0 }

def Averaged.group {w : ℕ} (s : Averaged w) (x : β) : Averaged w :=
  ⟨s.mData + (value x).setWidth w, s.mCount + 1, true⟩

/-- The quotient is formed in `size_t`. -/
def Averaged.endGroup {w : ℕ} (s : Averaged w) : Averaged w :=
  if s.mCount = 0 then s
  else { s with mData := (s.mData.setWidth 64 / s.mCount).setWidth w, mGrouping := false }

lemma Averaged.foldl_group {w : ℕ} (s : Averaged w) (r : List β) :
    (r.foldl (Averaged.group value) s).mData =
        r.foldl (fun m x => m + (value x).setWidth w) s.mData ∧
      (r.foldl (Averaged.group value) s).mCount = s.mCount + BitVec.ofNat 64 r.length := by
  induction r generalizing s with
  | nil => simp
  | cons x r ih =>
    refine ⟨(ih (s.group value x)).1, ?_⟩
    rw [List.foldl_cons, (ih (s.group value x)).2, List.length_cons]
    unfold Averaged.group
    dsimp only
    rw [Nat.add_comm r.length 1, BitVec.ofNat_add, BitVec.add_assoc]
    rfl

lemma Averaged.mCount_ne_zero {w : ℕ} (s : Averaged w) {r : List β} (hr : r ≠ [])
    (hlt : r.length < 2 ^ 64) : (r.foldl (Averaged.group value) s.beginGroup).mCount ≠ 0 := by
  rw [(Averaged.foldl_group value s.beginGroup r).2]
  have hpos := List.length_pos_iff.mpr hr
  unfold Averaged.beginGroup
  intro hzero
  have hnat := congrArg BitVec.toNat hzero
  simp at hnat
  omega

def avg : Aggregator β (BitVec w) where
  State := Averaged w
  start := ⟨0, 0, false⟩
  beginGroup := Averaged.beginGroup
  group := Averaged.group value
  endGroup := Averaged.endGroup
  grouping s := s.mGrouping
  output s := s.mData
  grouping_start := rfl
  grouping_group _ _ := rfl
  grouping_endGroup s r hr hlt := by
    unfold Averaged.endGroup
    rw [if_neg (Averaged.mCount_ne_zero value s hr hlt)]

end Aggregators

section Extremes
variable {β γ : Type u} [LinearOrder γ] [Zero γ] (value : β → γ)

def max : Aggregator β γ := accumulator 0 fun m x => if value x < m then m else value x

def min : Aggregator β γ := accumulator 0 fun m x => if m < value x then m else value x

end Extremes

structure Row (κ γ : Type u) where
  groupBy : κ
  output : γ
  deriving DecidableEq, Repr

variable {β κ γ : Type u} [DecidableEq κ]

structure State (κ : Type u) (A : Aggregator β γ) where
  mLastGroupId : κ
  mData : Row κ γ
  mAggregator : A.State

section Process
variable (key : β → κ) (A : Aggregator β γ)

/-- `groupby_impl::process`; the second component tells whether the input is consumed. -/
def process (s : State κ A) : Option β → Bool × Bool × State κ A
  | none =>
    if A.grouping s.mAggregator then
      let aggregator := A.endGroup s.mAggregator
      (true, false, ⟨s.mLastGroupId, { s.mData with output := A.output aggregator }, aggregator⟩)
    else (false, false, s)
  | some x =>
    let t := key x
    if A.grouping s.mAggregator then
      if s.mLastGroupId = t then
        (false, true, { s with mAggregator := A.group s.mAggregator x })
      else
        let aggregator := A.endGroup s.mAggregator
        (true, true, ⟨t, ⟨t, A.output aggregator⟩, A.group (A.beginGroup aggregator) x⟩)
    else
      (false, true, ⟨t, { s.mData with groupBy := t }, A.group (A.beginGroup s.mAggregator) x⟩)

def State.start [Inhabited κ] [Inhabited γ] : State κ A :=
  ⟨default, ⟨default, default⟩, A.start⟩

def operator [Inhabited κ] [Inhabited γ] : Star.Operator 1 β (Row κ γ) where
  State := State κ A
  start := State.start A
  process s inputs :=
    let (b, consumed, s') := process key A s (inputs 0)
    (b, fun _ => consumed, s')
  outputValue s := s.mData

/-- What the aggregator puts out for one run after the other. -/
def aggregates : A.State → List (List β) → List γ
  | _, [] => []
  | a, r :: rs =>
    let ended := A.endGroup (r.foldl A.group (A.beginGroup a))
    A.output ended :: aggregates ended rs

/-- The rows from a state within a group on, with the runs that follow. -/
def rowsFrom (q : κ) (a : A.State) : List (List β) → List (Row κ γ)
  | [] => [⟨q, A.output (A.endGroup a)⟩]
  | r :: rs =>
    let next := (r.head?.map key).getD q
    ⟨next, A.output (A.endGroup a)⟩ ::
      rowsFrom next (r.foldl A.group (A.beginGroup (A.endGroup a))) rs

/-- The rows of all runs. -/
def rowsOf [Inhabited κ] : List (List β) → List (Row κ γ)
  | [] => []
  | r :: rs =>
    rowsFrom key A ((r.head?.map key).getD default) (r.foldl A.group (A.beginGroup A.start)) rs

end Process

variable [Inhabited κ] [Inhabited γ] {key : β → κ} {A : Aggregator β γ}

section Emits
variable {q : κ} {d : Row κ γ} {a : A.State} {out : List (Row κ γ)} {x : β} {xs zs : List β}
  {rs : List (List β)}

lemma process_operator (key : β → κ) (s : State κ A) (xs : List β) :
    (operator key A).process s (Star.firsts fun _ => xs) =
      ((process key A s xs.head?).1, fun _ => (process key A s xs.head?).2.1,
        (process key A s xs.head?).2.2) := rfl

lemma drop_eq (b : Bool) (xs : List β) :
    Star.drop (fun _ => b) (fun _ : Fin 1 => xs) = fun _ => if b then xs.tail else xs := rfl

lemma emits_ended {s s' : State κ A} (h : process key A s none = (false, false, s')) :
    Star.Emits (operator key A) (fun _ => []) s [] := by
  have hprocess := process_operator key s []
  rw [List.head?_nil, h] at hprocess
  exact Star.Emits.ended hprocess fun _ _ => rfl

lemma emits_passed {s s' : State κ A} (h : process key A s (some x) = (false, true, s'))
    (hrest : Star.Emits (operator key A) (fun _ => xs) s' out) :
    Star.Emits (operator key A) (fun _ => x :: xs) s out := by
  have hprocess := process_operator key s (x :: xs)
  rw [List.head?_cons, h] at hprocess
  refine Star.Emits.passed hprocess ⟨0, rfl, List.cons_ne_nil x xs⟩ ?_
  rw [drop_eq]
  exact hrest

lemma emits_row {s s' : State κ A} (h : process key A s (some x) = (true, true, s'))
    (hrest : Star.Emits (operator key A) (fun _ => xs) s' out) :
    Star.Emits (operator key A) (fun _ => x :: xs) s (s'.mData :: out) := by
  have hprocess := process_operator key s (x :: xs)
  rw [List.head?_cons, h] at hprocess
  refine Star.Emits.emitted hprocess ?_
  rw [drop_eq]
  exact hrest

lemma emits_flush {s s' : State κ A} (h : process key A s none = (true, false, s'))
    (hrest : Star.Emits (operator key A) (fun _ => []) s' out) :
    Star.Emits (operator key A) (fun _ => []) s (s'.mData :: out) := by
  have hprocess := process_operator key s []
  rw [List.head?_nil, h] at hprocess
  refine Star.Emits.emitted hprocess ?_
  rw [drop_eq]
  exact hrest

omit [DecidableEq κ] [Inhabited κ] [Inhabited γ] in
lemma grouping_foldl (ha : A.grouping a = true) (zs : List β) :
    A.grouping (zs.foldl A.group a) = true := by
  induction zs generalizing a with
  | nil => exact ha
  | cons z zs ih => exact ih (A.grouping_group a z)

/-- The records of the current run are grouped without a row. -/
lemma emits_group (ha : A.grouping a = true) (hz : ∀ z ∈ zs, key z = q)
    (h : Star.Emits (operator key A) (fun _ => xs) (⟨q, d, zs.foldl A.group a⟩ : State κ A) out) :
    Star.Emits (operator key A) (fun _ => zs ++ xs) (⟨q, d, a⟩ : State κ A) out := by
  induction zs generalizing a with
  | nil => exact h
  | cons z zs ih =>
    have hkey : q = key z := (hz z List.mem_cons_self).symm
    have hprocess : process key A ⟨q, d, a⟩ (some z) = (false, true, ⟨q, d, A.group a z⟩) := by
      simp [process, ha, hkey]
    exact emits_passed hprocess
      (ih (A.grouping_group a z) (fun y hy => hz y (List.mem_cons_of_mem z hy)) h)

/-- Between two runs a row is emitted, and one at the end. -/
lemma emits_runs (hrs : IsRuns key rs) (hq : ∀ y ∈ rs.flatten.head?, key y ≠ q)
    (hd : d.groupBy = q) (ha : A.grouping a = true) (hend : A.grouping (A.endGroup a) = false)
    (hends : ∀ r ∈ rs, ∀ s, A.grouping (A.endGroup (r.foldl A.group (A.beginGroup s))) = false) :
    Star.Emits (operator key A) (fun _ => rs.flatten) (⟨q, d, a⟩ : State κ A)
      (rowsFrom key A q a rs) := by
  induction hrs generalizing q d a with
  | nil =>
    have hflush : process key A ⟨q, d, a⟩ none =
        (true, false, ⟨q, ⟨q, A.output (A.endGroup a)⟩, A.endGroup a⟩) := by
      simp [process, ha, hd]
    have hlast : process key A ⟨q, ⟨q, A.output (A.endGroup a)⟩, A.endGroup a⟩ none =
        (false, false, ⟨q, ⟨q, A.output (A.endGroup a)⟩, A.endGroup a⟩) := by
      simp [process, hend]
    exact emits_flush hflush (emits_ended hlast)
  | @cons x zs rs same change rest ih =>
    have hne : q ≠ key x := (hq x rfl).symm
    have hfold := grouping_foldl (A.grouping_group (A.beginGroup (A.endGroup a)) x) zs
    have htail := ih change (d := ⟨key x, A.output (A.endGroup a)⟩) rfl hfold
      (hends _ List.mem_cons_self (A.endGroup a)) fun r hr => hends r (List.mem_cons_of_mem _ hr)
    have hprocess : process key A ⟨q, d, a⟩ (some x) =
        (true, true, ⟨key x, ⟨key x, A.output (A.endGroup a)⟩,
          A.group (A.beginGroup (A.endGroup a)) x⟩) := by
      simp [process, ha, hne]
    exact emits_row hprocess (emits_group (A.grouping_group _ x) same htail)

end Emits

section Rows
variable {rs : List (List β)}

omit [DecidableEq κ] [Inhabited κ] [Inhabited γ] in
lemma rowsFrom_output (q : κ) (a : A.State) (rs : List (List β)) :
    (rowsFrom key A q a rs).map Row.output =
      A.output (A.endGroup a) :: aggregates A (A.endGroup a) rs := by
  induction rs generalizing q a with
  | nil => rfl
  | cons r rs ih =>
    simp only [rowsFrom, List.map_cons, ih]
    rfl

omit [DecidableEq κ] [Inhabited κ] [Inhabited γ] in
/-- Every row has the key of the run after its own, the last one has its own. -/
lemma rowsFrom_groupBy (q : κ) (a : A.State) (hrs : IsRuns key rs) :
    (rowsFrom key A q a rs).map Row.groupBy =
      (rs.filterMap fun r => r.head?.map key) ++
        (q :: rs.filterMap fun r => r.head?.map key).getLast?.toList := by
  induction hrs generalizing q a with
  | nil => rfl
  | cons same change rest ih =>
    simp only [rowsFrom, List.map_cons, ih]
    rfl

lemma emits_rowsOf (hrs : IsRuns key rs)
    (hends : ∀ r ∈ rs, ∀ s, A.grouping (A.endGroup (r.foldl A.group (A.beginGroup s))) = false) :
    Star.Emits (operator key A) (fun _ => rs.flatten) (State.start A) (rowsOf key A rs) := by
  cases hrs with
  | nil =>
    have hprocess : process key A (State.start A) none = (false, false, State.start A) := by
      simp [process, State.start, A.grouping_start]
    exact emits_ended hprocess
  | @cons x zs rs same change rest =>
    have hfold := grouping_foldl (A.grouping_group (A.beginGroup A.start) x) zs
    have htail := emits_runs rest change (d := ⟨key x, default⟩) rfl hfold
      (hends _ List.mem_cons_self A.start) fun r hr => hends r (List.mem_cons_of_mem _ hr)
    have hprocess : process key A (State.start A) (some x) =
        (false, true, ⟨key x, ⟨key x, default⟩, A.group (A.beginGroup A.start) x⟩) := by
      simp [process, State.start, A.grouping_start]
    exact emits_passed hprocess (emits_group (A.grouping_group _ x) same htail)

/-- A run of the engine ends with these rows. -/
theorem emitted_rows (U : Star.UpperStream β)
    (hends : ∀ r ∈ runs key U.records, ∀ s,
      A.grouping (A.endGroup (r.foldl A.group (A.beginGroup s))) = false)
    (rows : List (Row κ γ)) :
    Star.Emitted (fun _ => U) (operator key A) rows ↔
      rows = rowsOf key A (runs key U.records) := by
  have hemits := emits_rowsOf (isRuns_runs key U.records) hends
  rw [flatten_runs] at hemits
  exact Star.emitted_iff Nat.zero_lt_one hemits rows

omit [DecidableEq κ] [Inhabited γ] in
lemma rowsOf_output (rs : List (List β)) :
    (rowsOf key A rs).map Row.output = aggregates A A.start rs := by
  cases rs with
  | nil => rfl
  | cons r rs => exact rowsFrom_output _ _ rs

omit [Inhabited γ] in
lemma rowsOf_groupBy (xs : List β) :
    (rowsOf key A (runs key xs)).map Row.groupBy =
      (runKeys key xs).tail ++ (runKeys key xs).getLast?.toList := by
  unfold runKeys
  have hrs := isRuns_runs key xs
  generalize runs key xs = rs at hrs
  cases hrs with
  | nil => rfl
  | cons same change rest => exact rowsFrom_groupBy _ _ rest

omit [Inhabited κ] [Inhabited γ] in
lemma ends_of_length {xs : List β} (h : xs.length < 2 ^ 64) :
    ∀ r ∈ runs key xs, ∀ s,
      A.grouping (A.endGroup (r.foldl A.group (A.beginGroup s))) = false := by
  intro r hr s
  exact A.grouping_endGroup s r (ne_nil_of_mem_runs hr)
    (lt_of_le_of_lt (length_le_of_mem_runs hr) h)

end Rows

section Keys
variable (key A)

/-- The rows of a run of the engine have the keys of the runs of the input, in their order. -/
def CarriesKeys (U : Star.UpperStream β) : Prop :=
  ∃ rows, Star.Emitted (fun _ => U) (operator key A) rows ∧
    rows.map Row.groupBy = runKeys key U.records

lemma carriesKeys_iff_tail (U : Star.UpperStream β) (h : U.records.length < 2 ^ 64) :
    CarriesKeys key A U ↔ (runKeys key U.records).tail ++
      (runKeys key U.records).getLast?.toList = runKeys key U.records := by
  unfold CarriesKeys
  simp only [emitted_rows U (ends_of_length h), exists_eq_left, rowsOf_groupBy]

/-- The row of each run but the last has the key of the run that follows, so only an input with
one run gets its own key. -/
theorem carriesKeys_iff (U : Star.UpperStream β) (h : U.records.length < 2 ^ 64) :
    CarriesKeys key A U ↔ (runs key U.records).length ≤ 1 := by
  rw [carriesKeys_iff_tail key A U h, ← runKeys_length]
  have hchain := (isRuns_runs key U.records).isChain_keys
  change (runKeys key U.records).IsChain (· ≠ ·) at hchain
  generalize runKeys key U.records = qs at hchain
  match qs with
  | [] => simp
  | [q] => simp
  | q :: q' :: qs =>
    have hne := (List.isChain_cons_cons.mp hchain).1
    constructor
    · intro heq
      rw [List.tail_cons, List.cons_append] at heq
      exact absurd (List.cons.inj heq).1 hne.symm
    · intro hle
      simp at hle

/-- Three records of one group. -/
def oneRun : Star.UpperStream (ℕ × BitVec 64) :=
  .rawData [(1, 10), (1, 11), (1, 12)] (by decide)

theorem carriesKeys_iff_oneRun :
    CarriesKeys Prod.fst (sum 64 Prod.snd) oneRun ↔ (runs Prod.fst oneRun.records).length ≤ 1 :=
  carriesKeys_iff Prod.fst (sum 64 Prod.snd) oneRun (by decide)

/-- A group of two records and a group of one. -/
def twoRuns : Star.UpperStream (ℕ × BitVec 64) :=
  .rawData [(1, 10), (1, 11), (2, 20)] (by decide)

theorem keys_shifted :
    Star.Emitted (fun _ => twoRuns) (operator Prod.fst (sum 64 Prod.snd)) [⟨2, 21⟩, ⟨2, 20⟩] ∧
      runKeys Prod.fst twoRuns.records = [1, 2] ∧
      ¬ CarriesKeys Prod.fst (sum 64 Prod.snd) twoRuns := by
  refine ⟨⟨60, _, _, rfl, rfl, rfl⟩, rfl, ?_⟩
  rw [carriesKeys_iff_tail Prod.fst (sum 64 Prod.snd) twoRuns (by decide)]
  decide

end Keys
end PrivacyComputing.Hpda.Groupby
