import Mathlib.Data.List.FinRange
import PrivacyComputing.HpdaLoops
import PrivacyComputing.HpdaNetwork

/-! Several extractors, one operator over all of them and a `memory_output`, run by the engine.
The operator sees the values that the upper streams hold and resets those that it is done with. -/
namespace PrivacyComputing.Hpda.Star

universe u v

inductive Node (k : ℕ)
  | source (i : Fin k)
  | operator
  | output
  deriving DecidableEq, Repr

variable {k : ℕ}

def Node.predecessors : Node k → List (Node k)
  | .source _ => []
  | .operator => (List.finRange k).map .source
  | .output => [.operator]

/-- What `done_value` leaves in `m_has_value`. -/
def Node.holdsValue : Node k → Bool
  | .source _ => true
  | .operator => true
  | .output => false

structure Extractor (β : Type u) where
  State : Type u
  process : State → Bool × State
  outputValue : State → Except Thrown β

/-- Processed again and again, the extractor hands on these records and then no more. -/
def Extractor.Delivers {β : Type u} (E : Extractor β) : E.State → List β → Prop
  | s, [] => (E.process s).1 = false
  | s, x :: xs => (E.process s).1 = true ∧ E.outputValue (E.process s).2 = .ok x ∧
      E.Delivers (E.process s).2 xs

/-- An extractor as it is constructed, with the finite list that it delivers. -/
structure UpperStream (β : Type u) extends Extractor β where
  start : State
  records : List β
  delivers : toExtractor.Delivers start records

section RawData
variable {β : Type u}

/-- `raw_data`, of which the records and the index are used. -/
def rawData (β : Type u) : Extractor β := ⟨Cell β, Cell.rawProcess, Cell.rawValue⟩

lemma delivers_rawData (before : List β) {rest : List β} {cell : Cell β}
    (hdata : cell.mData = before ++ rest) (hindex : cell.mIndex + 1 = before.length)
    (hlt : cell.mData.length < 2 ^ 31) : (rawData β).Delivers cell rest := by
  induction rest generalizing cell before with
  | nil =>
    change cell.rawProcess.1 = false
    unfold Cell.rawProcess
    split_ifs
    · rfl
    · rw [castInt_of_lt hlt, hdata, hindex]
      simp
  | cons x rest ih =>
    have hlength : cell.mData.length = before.length + (rest.length + 1) := by
      rw [hdata, List.length_append, List.length_cons]
    have hne : cell.mData.isEmpty = false := by
      rw [hdata]
      simp
    have hprocess : cell.rawProcess = (true, { cell with mIndex := cell.mIndex + 1 }) := by
      unfold Cell.rawProcess
      rw [if_neg (by simp [hne]), castInt_of_lt hlt]
      simp only [Prod.mk.injEq, and_true, decide_eq_true_eq]
      omega
    change cell.rawProcess.1 = true ∧ cell.rawProcess.2.rawValue = .ok x ∧
      (rawData β).Delivers cell.rawProcess.2 rest
    rw [hprocess]
    refine ⟨rfl, ?_, ih (before ++ [x]) ?_ ?_ hlt⟩
    · unfold Cell.rawValue
      dsimp only
      rw [if_neg (by omega), hindex, hdata]
      simp
    · dsimp only
      rw [hdata, List.append_assoc]
      rfl
    · dsimp only
      rw [List.length_append, List.length_singleton]
      omega

/-- The records of a `raw_data` whose number fits an `int`. -/
def UpperStream.rawData [Inhabited β] (data : List β) (h : data.length < 2 ^ 31) :
    UpperStream β where
  toExtractor := Star.rawData β
  start := initialCell (Functor.rawData (ι := Unit) data)
  records := data
  delivers := delivers_rawData [] rfl rfl h

end RawData

/-- `process` is given the values that the upper streams hold; it answers also which of them are
reset. -/
structure Operator (k : ℕ) (β : Type u) (γ : Type v) where
  State : Type (max u v)
  start : State
  process : State → (Fin k → Option β) → Bool × (Fin k → Bool) × State
  outputValue : State → γ

variable {β : Type u} {γ : Type v}

/-- What a run changes beside the cells; `values` are those of `memory_output`. -/
structure Store (U : Fin k → UpperStream β) (op : Operator k β γ) where
  sources : ∀ i, (U i).State
  operator : op.State
  values : List γ

section Functors
variable (U : Fin k → UpperStream β) (op : Operator k β γ)

def throws (cells : Node k → Cell Unit) (o : Store U op) : Bool :=
  (List.finRange k).any fun i =>
    (cells (.source i)).mHasValue && ((U i).outputValue (o.sources i)).toOption.isNone

def heads (cells : Node k → Cell Unit) (o : Store U op) (i : Fin k) : Option β :=
  if (cells (.source i)).mHasValue then ((U i).outputValue (o.sources i)).toOption else none

def consume (taken : Fin k → Bool) (cells : Node k → Cell Unit) : Node k → Cell Unit
  | .source i =>
    if taken i then { cells (.source i) with mHasValue := false } else cells (.source i)
  | v => cells v

def process (v : Node k) (cells : Node k → Cell Unit) (o : Store U op) :
    Except Thrown (Bool × (Node k → Cell Unit) × Store U op) :=
  match v with
  | .source i =>
    let (b, s) := (U i).process (o.sources i)
    .ok (b, cells, { o with sources := Function.update o.sources i s })
  | .operator =>
    if throws U op cells o then .error .noMoreData
    else
      let (b, taken, s) := op.process o.operator (heads U op cells o)
      .ok (b, consume taken cells, { o with operator := s })
  | .output =>
    if (cells .operator).mHasValue = false then .ok (false, cells, o)
    else
      .ok (true, resetDoneValue cells .operator,
        { o with values := o.values ++ [op.outputValue o.operator] })

def functors : Loops.Functors (Node k) Unit (Store U op) Thrown where
  predecessors := Node.predecessors
  process := process U op
  holdsValue := Node.holdsValue

/-- A cell of which only the value held and the status are used. -/
def cell (p : Bool × Status) : Cell Unit := ⟨p.1, p.2, [], -1, 0, ()⟩

def cellsOf (slots : Fin k → Bool × Status) (operator : Bool × Status) (output : Status) :
    Node k → Cell Unit
  | .source i => cell (slots i)
  | .operator => cell operator
  | .output => cell (false, output)

/-- The slots after a call of the operator. -/
def reset (taken : Fin k → Bool) (slots : Fin k → Bool × Status) (i : Fin k) : Bool × Status :=
  if taken i then (false, (slots i).2) else slots i

/-- The engine with its output in the queue, the only functor that `find_outputs` can return. -/
def ready (slots : Fin k → Bool × Status) : State (Node k) Unit :=
  ⟨cellsOf slots (false, .null) .toP, [.output], [], .bfs⟩

def initial : Store U op := ⟨fun i => (U i).start, op.start, []⟩

/-- `engine::run` comes to its end, without an exception, with these values in the output. -/
def Emitted (rows : List γ) : Prop :=
  ∃ n st o, Loops.runSteps (functors U op) [.output] n (ready fun _ => (false, .null))
    (initial U op) = .ok (st, o) ∧ st.phase = .finished ∧ o.values = rows

end Functors

section Cells
variable {slots : Fin k → Bool × Status} {operator : Bool × Status} {output : Status}

@[simp] lemma cell_mHasValue (p : Bool × Status) : (cell p).mHasValue = p.1 := rfl

@[simp] lemma cell_mStatus (p : Bool × Status) : (cell p).mStatus = p.2 := rfl

@[simp] lemma cellsOf_source (i : Fin k) :
    cellsOf slots operator output (.source i) = cell (slots i) := rfl

@[simp] lemma cellsOf_operator : cellsOf slots operator output .operator = cell operator := rfl

@[simp] lemma cellsOf_output : cellsOf slots operator output .output = cell (false, output) := rfl

@[simp] lemma setStatus_source (i : Fin k) (s : Status) :
    setStatus (cellsOf slots operator output) (.source i) s =
      cellsOf (Function.update slots i ((slots i).1, s)) operator output := by
  funext v
  cases v with
  | source j =>
    by_cases hj : j = i
    · subst hj
      simp [setStatus, modify, cell]
    · simp [setStatus, modify, hj]
  | operator => simp [setStatus, modify]
  | output => simp [setStatus, modify]

@[simp] lemma setHasValue_source (i : Fin k) (b : Bool) :
    setHasValue (cellsOf slots operator output) (.source i) b =
      cellsOf (Function.update slots i (b, (slots i).2)) operator output := by
  funext v
  cases v with
  | source j =>
    by_cases hj : j = i
    · subst hj
      simp [setHasValue, modify, cell]
    · simp [setHasValue, modify, hj]
  | operator => simp [setHasValue, modify]
  | output => simp [setHasValue, modify]

@[simp] lemma setStatus_operator (s : Status) :
    setStatus (cellsOf slots operator output) .operator s =
      cellsOf slots (operator.1, s) output := by
  funext v
  cases v <;> simp [setStatus, modify, cell]

@[simp] lemma setHasValue_operator (b : Bool) :
    setHasValue (cellsOf slots operator output) .operator b =
      cellsOf slots (b, operator.2) output := by
  funext v
  cases v <;> simp [setHasValue, modify, cell]

@[simp] lemma setStatus_output (s : Status) :
    setStatus (cellsOf slots operator output) .output s = cellsOf slots operator s := by
  funext v
  cases v <;> simp [setStatus, modify, cell]

@[simp] lemma setHasValue_output :
    setHasValue (cellsOf slots operator output) .output false =
      cellsOf slots operator output := by
  funext v
  cases v <;> simp [setHasValue, modify, cell]

lemma consume_cellsOf (taken : Fin k → Bool) :
    consume taken (cellsOf slots operator output) =
      cellsOf (reset taken slots) operator output := by
  funext v
  cases v with
  | source i =>
    unfold consume reset
    simp only [cellsOf_source]
    split_ifs
    · rfl
    · rfl
  | operator => rfl
  | output => rfl

end Cells
end PrivacyComputing.Hpda.Star
