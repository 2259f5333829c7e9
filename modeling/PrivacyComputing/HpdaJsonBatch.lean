import PrivacyComputing.CryptoPack
import PrivacyComputing.HpdaStarRun

/-! `json_to_data_batch` between a source and a `memory_output`. An input is consumed only when it
cannot be parsed, so one that can is parsed again after its last item, without end. -/
namespace PrivacyComputing.Hpda.JsonBatch

universe u

/-- `read_json`, the picker, of whose result the texts of the array elements are used, and the
transformer; without a result they have thrown. -/
structure Functors (β γ : Type u) where
  Tree : Type u
  readJson : β → Option Tree
  dataItemPicker : Tree → Option (List β)
  itemTransformer : β → Option γ

structure State (γ : Type u) where
  mAllData : List γ
  mNextDataIndex : ℕ

variable {β γ : Type u} (F : Functors β γ)

def parseData : Option β → Bool × State γ
  | none => (false, ⟨[], 0⟩)
  | some v =>
    match (F.readJson v).bind F.dataItemPicker with
    | none => (false, ⟨[], 0⟩)
    | some child => (true, ⟨child.filterMap F.itemTransformer, 0⟩)

/-- The second component tells whether the input is consumed. -/
def process (s : State γ) (input : Option β) : Bool × Bool × State γ :=
  let s := { s with mNextDataIndex := s.mNextDataIndex + 1 }
  if s.mNextDataIndex ≥ s.mAllData.length then
    let (parsed, s) := parseData F input
    if parsed then (true, false, s) else (false, true, s)
  else (true, false, s)

/-- `output_value` indexes the batch without a check. -/
def outputValue (s : State γ) : Option γ := s.mAllData[s.mNextDataIndex]?

def operator : Star.Operator 1 β (Option γ) where
  State := State γ
  start := ⟨[], 0⟩
  process s inputs :=
    let (b, consumed, s') := process F s (inputs (Fin.last 0))
    (b, fun _ => consumed, s')
  outputValue := outputValue

/-- The items of one input, `none` when it cannot be parsed. -/
def batch (v : β) : Option (List γ) :=
  ((F.readJson v).bind F.dataItemPicker).map fun child => child.filterMap F.itemTransformer

/-- A run of the engine ends with the items of all inputs, each inside its batch. -/
def Converts (U : Star.UpperStream β) : Prop :=
  Star.Emitted (fun _ => U) (operator F) ((U.records.filterMap (batch F)).flatten.map some)

section Calls
variable {F} {s : State γ} {x : β} {xs : List β}

lemma process_operator (s : State γ) (xs : List β) :
    (operator F).process s (Star.firsts fun _ => xs) =
      ((process F s xs.head?).1, fun _ => (process F s xs.head?).2.1,
        (process F s xs.head?).2.2) := rfl

lemma parseData_of_batch {items : List γ} (h : batch F x = some items) :
    parseData F (some x) = (true, ⟨items, 0⟩) := by
  unfold batch at h
  rw [parseData]
  cases hchild : (F.readJson x).bind F.dataItemPicker with
  | none => simp [hchild] at h
  | some child =>
    rw [hchild, Option.map_some, Option.some.injEq] at h
    rw [← h]

lemma parseData_of_batch_none (h : batch F x = none) :
    parseData F (some x) = (false, ⟨[], 0⟩) := by
  unfold batch at h
  rw [parseData]
  rw [Option.map_eq_none_iff] at h
  rw [h]

/-- An input that can be parsed is never consumed. -/
lemma process_of_batch {items : List γ} (s : State γ) (h : batch F x = some items) :
    ∃ s', process F s (some x) = (true, false, s') := by
  unfold process
  rw [parseData_of_batch h]
  dsimp only
  split_ifs
  · exact ⟨_, rfl⟩
  · contradiction
  · exact ⟨_, rfl⟩

lemma process_of_batch_none (s : State γ) (h : batch F x = none) :
    (∃ s', process F s (some x) = (true, false, s')) ∨
      process F s (some x) = (false, true, ⟨[], 0⟩) := by
  unfold process
  rw [parseData_of_batch_none h]
  dsimp only
  split_ifs
  · contradiction
  · exact Or.inr rfl
  · exact Or.inl ⟨_, rfl⟩

end Calls

variable {F} {xs : List β}

/-- Without a batch the operator is back at its start after each input. -/
lemma emits_unparsed (h : ∀ v ∈ xs, batch F v = none) :
    Star.Emits (operator F) (fun _ => xs) ⟨[], 0⟩ [] := by
  induction xs with
  | nil => exact Star.Emits.ended (process_operator ⟨[], 0⟩ []) fun _ _ => rfl
  | cons x xs ih =>
    have hprocess : process F ⟨[], 0⟩ (some x) = (false, true, ⟨[], 0⟩) := by
      have hx := h x List.mem_cons_self
      rw [process, parseData_of_batch_none hx]
      rfl
    have hcall := process_operator (F := F) ⟨[], 0⟩ (x :: xs)
    rw [List.head?_cons, hprocess] at hcall
    exact Star.Emits.passed hcall ⟨0, rfl, List.cons_ne_nil x xs⟩
      (ih fun v hv => h v (List.mem_cons_of_mem x hv))

/-- While an input that can be parsed is to come, every call emits or takes an input. -/
lemma process_endless (L : Fin 1 → List β) (s : State γ) (h : ∃ v ∈ L 0, batch F v ≠ none) :
    ∃ b taken s', (operator F).process s (Star.firsts L) = (b, taken, s') ∧
      (b = true ∨ ∃ i, taken i = true ∧ L i ≠ []) ∧
      ∃ v ∈ Star.drop taken L 0, batch F v ≠ none := by
  obtain ⟨v, hv, hbatch⟩ := h
  have hL : L = fun _ => L 0 := by
    funext i
    rw [Subsingleton.elim i 0]
  have hcall := process_operator (F := F) s (L 0)
  rw [← hL] at hcall
  cases hlist : L 0 with
  | nil =>
    rw [hlist] at hv
    cases hv
  | cons x xs =>
    rw [hlist, List.head?_cons] at hcall
    -- The head is kept when the call emits, and dropped only when it cannot be parsed.
    cases hx : batch F x with
    | some items =>
      obtain ⟨s', hprocess⟩ := process_of_batch s hx
      rw [hprocess] at hcall
      exact ⟨_, _, _, hcall, Or.inl rfl, v, hv, hbatch⟩
    | none =>
      rcases process_of_batch_none s hx with ⟨s', hprocess⟩ | hprocess
      · rw [hprocess] at hcall
        exact ⟨_, _, _, hcall, Or.inl rfl, v, hv, hbatch⟩
      · rw [hprocess] at hcall
        refine ⟨_, _, _, hcall, Or.inr ⟨0, rfl, by simp [hlist]⟩, v, ?_, hbatch⟩
        have hne : v ≠ x := fun heq => hbatch (heq ▸ hx)
        rw [hlist] at hv
        have htail := (List.mem_cons.mp hv).resolve_left hne
        simpa [Star.drop, hlist] using htail

lemma not_emitted_of_batch {U : Star.UpperStream β} (h : ∃ v ∈ U.records, batch F v ≠ none)
    (rows : List (Option γ)) : ¬ Star.Emitted (fun _ => U) (operator F) rows :=
  Star.not_emitted_of_endless Nat.zero_lt_one process_endless h rows

/-- The conversion is right for inputs of which none can be parsed, and for no others: with one
that can, the run does not end. -/
theorem converts_iff (F : Functors β γ) (U : Star.UpperStream β) :
    Converts F U ↔ ∀ v ∈ U.records, batch F v = none := by
  constructor
  · intro hconverts v hv
    by_contra hbatch
    exact not_emitted_of_batch ⟨v, hv, hbatch⟩ _ hconverts
  · intro hnone
    have hrows : U.records.filterMap (batch F) = [] := by
      rw [List.filterMap_eq_nil_iff]
      exact hnone
    unfold Converts
    rw [hrows]
    exact (Star.emitted_iff Nat.zero_lt_one (emits_unparsed hnone) _).mpr rfl

/-- The documents `[7]` and `[]` with a picker and a transformer that change nothing. -/
def arrays : Functors Bytes Bytes where
  Tree := List Bytes
  readJson v := if v = [91, 55, 93] then some [[55]] else if v = [91, 93] then some [] else none
  dataItemPicker := some
  itemTransformer := some

def oneArray : Star.UpperStream Bytes := .rawData [[91, 55, 93]] (by decide)

/-- One array of one item is handed on again and again; after an empty array the output is asked
for an item that is not there. -/
theorem array_never_consumed :
    batch arrays [91, 55, 93] = some [[55]] ∧
      (∀ rows, ¬ Star.Emitted (fun _ => oneArray) (operator arrays) rows) ∧
      (process arrays ⟨[], 0⟩ (some [91, 93])).1 = true ∧
      outputValue (process arrays ⟨[], 0⟩ (some [91, 93])).2.2 = none ∧
      ¬ Converts arrays oneArray := by
  have hbatch : batch arrays [91, 55, 93] = some [[55]] := by decide
  have hendless : ∃ v ∈ oneArray.records, batch arrays v ≠ none :=
    ⟨[91, 55, 93], List.mem_cons_self, by rw [hbatch]; simp⟩
  exact ⟨hbatch, not_emitted_of_batch hendless, by decide, by decide,
    not_emitted_of_batch hendless _⟩

end PrivacyComputing.Hpda.JsonBatch
