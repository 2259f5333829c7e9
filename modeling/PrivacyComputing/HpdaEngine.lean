import Mathlib.Algebra.Ring.Nat
import Mathlib.Data.Fintype.Basic
import Mathlib.Data.List.Nodup

/-! The dataflow engine: functors with their one-slot values, the breadth-first queue
`to_process`, the stack `processing` and the loops of `engine::run`, one queue or stack entry at a
time. The functors registered on the engine are the elements of a finite type. -/
namespace PrivacyComputing.Hpda

inductive Functor (ι α : Type*)
  | rawData (data : List α)
  | filter (upperStream : ι) (func : α → Bool)
  | concat (upperStream : ι) (added : List ι)
  | split (upperStream : ι) (streams : List ι)
  | splitStream (split : ι)
  | memoryOutput (upperStream : ι)

variable {ι α : Type*}

def Functor.predecessors : Functor ι α → List ι
  | .rawData _ => []
  | .filter u _ => [u]
  | .concat u added => u :: added
  | .split u _ => [u]
  | .splitStream s => [s]
  | .memoryOutput u => [u]

inductive Status
  | null
  | toP
  | p
  | ended
  deriving DecidableEq, Repr

/-- The members of a functor that change in a run: `mData` and `mIndex` of `raw_data` (the
streams of a split included) and of `memory_output`, `mUpperIndex` the index of `concat`, `mValue`
the copy that `filter` and `concat` hand on. -/
structure Cell (α : Type*) where
  mHasValue : Bool
  mStatus : Status
  mData : List α
  mIndex : ℤ
  mUpperIndex : ℕ
  mValue : α
  deriving DecidableEq, Repr

inductive Thrown
  | noMoreData
  | cannotFindOutput
  deriving DecidableEq, Repr

def Thrown.what : Thrown → String
  | .noMoreData => "no more data in raw_data "
  | .cannotFindOutput => "cannot find output"

inductive Phase
  | bfs
  | pop
  | finished
  deriving DecidableEq, Repr

/-- The head of `processing` is the top of the stack. -/
structure State (ι α : Type*) where
  cells : ι → Cell α
  toProcess : List ι
  processing : List ι
  phase : Phase

/-- `static_cast<int>` of a `size_t`. -/
def castInt (size : ℕ) : ℤ := Int.bmod size (2 ^ 32)

section Cells
variable [DecidableEq ι]

def modify (c : ι → Cell α) (v : ι) (change : Cell α → Cell α) : ι → Cell α :=
  fun w => if w = v then change (c w) else c w

def setStatus (c : ι → Cell α) (v : ι) (status : Status) : ι → Cell α :=
  modify c v ({ · with mStatus := status })

def setHasValue (c : ι → Cell α) (v : ι) (b : Bool) : ι → Cell α :=
  modify c v ({ · with mHasValue := b })

def resetDoneValue (c : ι → Cell α) (v : ι) : ι → Cell α := setHasValue c v false

/-- `output_base`, from which split and memory_output derive, never has a value. -/
def doneValue (G : ι → Functor ι α) (c : ι → Cell α) (v : ι) : ι → Cell α :=
  match G v with
  | .split _ _ => setHasValue c v false
  | .memoryOutput _ => setHasValue c v false
  | _ => setHasValue c v true

def addData (c : ι → Cell α) (v : ι) (x : α) : ι → Cell α :=
  modify c v fun cell => { cell with mData := cell.mData ++ [x] }

end Cells

/-- The index is converted to `size_t` for the comparison, so a negative one throws too. -/
def Cell.rawValue (cell : Cell α) : Except Thrown α :=
  if cell.mIndex < 0 then .error .noMoreData
  else
    match cell.mData[cell.mIndex.toNat]? with
    | some x => .ok x
    | none => .error .noMoreData

def outputValue (G : ι → Functor ι α) (c : ι → Cell α) (v : ι) : Except Thrown α :=
  match G v with
  | .rawData _ => (c v).rawValue
  | .splitStream _ => (c v).rawValue
  | _ => .ok (c v).mValue

/-- `raw_data_impl::process`: the index advances also when there is no more data. -/
def Cell.rawProcess (cell : Cell α) : Bool × Cell α :=
  if cell.mData.isEmpty then (false, cell)
  else
    (decide (cell.mIndex + 1 < castInt cell.mData.length),
      { cell with mIndex := cell.mIndex + 1 })

/-- The `while` loop of `concat_impl::process`. -/
def skipEmpty (c : ι → Cell α) (uppers : List ι) (index : ℕ) : ℕ :=
  index + ((uppers.drop index).takeWhile fun u => !(c u).mHasValue).length

section Process
variable [DecidableEq ι]

def process (G : ι → Functor ι α) (c : ι → Cell α) (v : ι) : Except Thrown (Bool × (ι → Cell α)) :=
  match G v with
  | .rawData _ => .ok ((c v).rawProcess.1, modify c v (·.rawProcess.2))
  | .splitStream _ => .ok ((c v).rawProcess.1, modify c v (·.rawProcess.2))
  | .filter u func =>
    if (c u).mHasValue = false then .ok (false, c)
    else
      match outputValue G c u with
      | .error e => .error e
      | .ok x =>
        if func x then .ok (true, resetDoneValue (modify c v ({ · with mValue := x })) u)
        else .ok (false, resetDoneValue c u)
  | .concat u added =>
    let index := skipEmpty c (u :: added) (c v).mUpperIndex
    match (u :: added)[index]? with
    | none => .ok (false, modify c v ({ · with mUpperIndex := index }))
    | some w =>
      match outputValue G c w with
      | .error e => .error e
      | .ok x =>
        .ok (true, resetDoneValue
          (modify c v ({ · with mUpperIndex := index, mValue := x })) w)
  | .split u streams =>
    if (c u).mHasValue = false then .ok (false, c)
    else
      match outputValue G c u with
      | .error e => .error e
      | .ok x => .ok (true, resetDoneValue (streams.foldl (fun c r => addData c r x) c) u)
  | .memoryOutput u =>
    if (c u).mHasValue = false then .ok (false, c)
    else
      match outputValue G c u with
      | .error e => .error e
      | .ok x => .ok (true, resetDoneValue (addData c v x) u)

/-- The functors of a list that are pushed on `to_process`, in the order of the list. -/
def request : List ι → (ι → Cell α) → List ι × (ι → Cell α)
  | [], c => ([], c)
  | input :: inputs, c =>
    if (c input).mHasValue = false ∧ (c input).mStatus ≠ .toP ∧ (c input).mStatus ≠ .ended then
      let (asked, c') := request inputs (setStatus c input .toP)
      (input :: asked, c')
    else request inputs c

/-- Step 3, before the next breadth-first search: the outputs are asked whether or not they hold
a value. -/
def requestOutputs : List ι → (ι → Cell α) → List ι × (ι → Cell α)
  | [], c => ([], c)
  | output :: outputs, c =>
    if (c output).mStatus ≠ .ended ∧ (c output).mStatus ≠ .toP then
      let (asked, c') := requestOutputs outputs (setStatus c output .toP)
      (output :: asked, c')
    else requestOutputs outputs c

end Process

section Engine
variable [DecidableEq ι] (G : ι → Functor ι α)

/-- An extractor is processed at once, every other functor is pushed on the stack. -/
def visit (f : ι) (stack : List ι) (c : ι → Cell α) : Except Thrown (List ι × (ι → Cell α)) :=
  if (G f).predecessors.isEmpty then
    match process G c f with
    | .error e => .error e
    | .ok (true, c') => .ok (stack, setStatus (doneValue G c' f) f .null)
    | .ok (false, c') => .ok (stack, setStatus c' f .ended)
  else .ok (f :: stack, setStatus c f .p)

/-- One turn of the breadth-first loop. -/
def bfsStep (f : ι) (queue : List ι) (st : State ι α) : Except Thrown (State ι α) :=
  match visit G f st.processing st.cells with
  | .error e => .error e
  | .ok (stack, c) =>
    let (asked, c') := request (G f).predecessors c
    let queue' := queue ++ asked
    .ok ⟨c', queue', stack, if queue' = [] then .pop else .bfs⟩

/-- One turn of the loop that pops the stack. -/
def popStep (f : ι) (stack : List ι) (st : State ι α) : Except Thrown (State ι α) :=
  match process G st.cells f with
  | .error e => .error e
  | .ok (true, c) => .ok ⟨setStatus (doneValue G c f) f .null, st.toProcess, stack, .pop⟩
  | .ok (false, c) =>
    match request (G f).predecessors (resetDoneValue c f) with
    | ([], c') => .ok ⟨setStatus c' f .ended, st.toProcess, stack, .pop⟩
    | (asked, c') => .ok ⟨c', st.toProcess ++ asked, f :: stack, .bfs⟩

/-- The stack is empty and so is the queue. -/
def prepareStep (outputs : List ι) (st : State ι α) : State ι α :=
  match requestOutputs outputs st.cells with
  | ([], c) => ⟨c, [], [], .finished⟩
  | (asked, c) => ⟨c, asked, [], .bfs⟩

def step (outputs : List ι) (st : State ι α) : Except Thrown (State ι α) :=
  match st.phase, st.toProcess, st.processing with
  | .finished, _, _ => .ok st
  | .bfs, [], _ => .ok { st with phase := .pop }
  | .bfs, f :: queue, _ => bfsStep G f queue st
  | .pop, _, f :: stack => popStep G f stack st
  | .pop, _, [] => .ok (prepareStep outputs st)

def runSteps (outputs : List ι) : ℕ → State ι α → Except Thrown (State ι α)
  | 0, st => .ok st
  | n + 1, st =>
    match step G outputs st with
    | .error e => .error e
    | .ok st' => runSteps outputs n st'

end Engine

section Start
variable [DecidableEq ι] [Fintype ι] [Inhabited α] (G : ι → Functor ι α)

/-- A functor as it is constructed, with the records added to a source. -/
def initialCell : Functor ι α → Cell α
  | .rawData data => ⟨false, .null, data, -1, 0, default⟩
  | _ => ⟨false, .null, [], -1, 0, default⟩

def IsOutput (v : ι) : Prop := ∀ f, v ∉ (G f).predecessors

instance (v : ι) : Decidable (IsOutput G v) := inferInstanceAs (Decidable (∀ _, _))

/-- What `find_outputs` may return: the functors without successors, in any order. -/
def FindOutputs (outputs : List ι) : Prop := outputs.Nodup ∧ ∀ v, v ∈ outputs ↔ IsOutput G v

instance (outputs : List ι) : Decidable (FindOutputs G outputs) :=
  inferInstanceAs (Decidable (_ ∧ _))

def start (outputs : List ι) : Except Thrown (State ι α) :=
  if outputs = [] then .error .cannotFindOutput
  else
    .ok ⟨fun v => if v ∈ outputs then { initialCell (G v) with mStatus := .toP }
      else initialCell (G v), outputs, [], .bfs⟩

/-- `engine::run`, cut off after `n` turns of its loops. -/
def run (outputs : List ι) (n : ℕ) : Except Thrown (State ι α) :=
  match start G outputs with
  | .error e => .error e
  | .ok st => runSteps G outputs n st

end Start

end PrivacyComputing.Hpda
