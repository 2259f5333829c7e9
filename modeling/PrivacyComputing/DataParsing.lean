import PrivacyComputing.DataProvider
import PrivacyComputing.HpdaLoops

/-! A parser pipeline: a data provider, `to_type` over it and a `memory_output`, run by the
engine. The items of the provider are parsed by any partial function. -/
namespace PrivacyComputing.Parsing
open DataProvider Hpda

inductive Node
  | provider
  | toType
  | memoryOutput
  deriving DecidableEq, Repr

def Node.predecessors : Node → List Node
  | .provider => []
  | .toType => [.provider]
  | .memoryOutput => [.toType]

/-- What `done_value` leaves in `m_has_value`. -/
def Node.holdsValue : Node → Bool
  | .provider => true
  | .toType => true
  | .memoryOutput => false

/-- How a run may leave `engine::run` early: an exception of the provider, or a value that is
read past the items of a batch. -/
inductive Fault
  | threw
  | outOfRange
  deriving DecidableEq, Repr

section Pipeline
variable {β H : Type*} (c : CryptoPack) (decode : Bytes → Option (List Bytes))
variable (nextDataBatch : Bytes → H → BatchAnswer × H) (parser : Bytes → Option β)

/-- `to_type::process`: the input is consumed only when it has been parsed. -/
def toTypeProcess (cells : Node → Cell β) (p : Provider) :
    Except Fault (Bool × (Node → Cell β)) :=
  if (cells .provider).mHasValue = false then .ok (false, cells)
  else
    match p.outputValue with
    | none => .error .outOfRange
    | some data =>
      match parser data with
      | none => .ok (false, cells)
      | some obj =>
        .ok (true, resetDoneValue (modify cells .toType ({ · with mValue := obj })) .provider)

def memoryOutputProcess (cells : Node → Cell β) : Bool × (Node → Cell β) :=
  if (cells .toType).mHasValue = false then (false, cells)
  else (true, resetDoneValue (addData cells .memoryOutput (cells .toType).mValue) .toType)

def process (v : Node) (cells : Node → Cell β) (o : Provider × H) :
    Except Fault (Bool × (Node → Cell β) × Provider × H) :=
  match v with
  | .provider =>
    match o.1.process c decode nextDataBatch o.2 with
    | (.threw, _, _) => .error .threw
    | (out, p, h) => .ok (out.isTrue, cells, p, h)
  | .toType =>
    match toTypeProcess parser cells o.1 with
    | .error e => .error e
    | .ok (b, cells') => .ok (b, cells', o)
  | .memoryOutput => .ok ((memoryOutputProcess cells).1, (memoryOutputProcess cells).2, o)

def functors : Loops.Functors Node β (Provider × H) Fault where
  predecessors := Node.predecessors
  process := process c decode nextDataBatch parser
  holdsValue := Node.holdsValue

/-- The cells between two rounds: only the statuses, the values held and the two members that
the pipeline uses differ. -/
def cellsOf [Inhabited β] (provider toType : Bool × Hpda.Status) (output : Hpda.Status) (obj : β)
    (values : List β) : Node → Cell β
  | .provider => ⟨provider.1, provider.2, [], -1, 0, default⟩
  | .toType => ⟨toType.1, toType.2, [], -1, 0, obj⟩
  | .memoryOutput => ⟨false, output, values, -1, 0, default⟩

variable [Inhabited β]

/-- The engine with its output in the queue. -/
def ready (obj : β) (values : List β) : State Node β :=
  ⟨cellsOf (false, .null) (false, .null) .toP obj values, [.memoryOutput], [], .bfs⟩

/-- Turns of the loops of `engine::run` on the pipeline. -/
def turns (n : ℕ) (st : State Node β) (o : Provider × H) :
    Except Fault (State Node β × Provider × H) :=
  Loops.runSteps (functors c decode nextDataBatch parser) [.memoryOutput] n st o

/-- `engine::run` on the pipeline comes to its end in this state. -/
def Finishes (p : Provider) (h : H) (st : State Node β) (q : Provider) : Prop :=
  ∃ n h', turns c decode nextDataBatch parser n (ready default []) (p, h) = .ok (st, q, h') ∧
    st.phase = .finished

/-- The values of the output. -/
def delivered (st : State Node β) : List β := (st.cells .memoryOutput).mData

end Pipeline

section Cells
variable {β : Type*} [Inhabited β] {provider toType : Bool × Hpda.Status} {output : Hpda.Status}
  {obj : β} {values : List β}

@[simp] lemma setStatus_provider (s : Hpda.Status) :
    setStatus (cellsOf provider toType output obj values) .provider s =
      cellsOf (provider.1, s) toType output obj values := by
  funext v
  cases v <;> rfl

@[simp] lemma setStatus_toType (s : Hpda.Status) :
    setStatus (cellsOf provider toType output obj values) .toType s =
      cellsOf provider (toType.1, s) output obj values := by
  funext v
  cases v <;> rfl

@[simp] lemma setStatus_memoryOutput (s : Hpda.Status) :
    setStatus (cellsOf provider toType output obj values) .memoryOutput s =
      cellsOf provider toType s obj values := by
  funext v
  cases v <;> rfl

@[simp] lemma setHasValue_provider (b : Bool) :
    setHasValue (cellsOf provider toType output obj values) .provider b =
      cellsOf (b, provider.2) toType output obj values := by
  funext v
  cases v <;> rfl

@[simp] lemma setHasValue_toType (b : Bool) :
    setHasValue (cellsOf provider toType output obj values) .toType b =
      cellsOf provider (b, toType.2) output obj values := by
  funext v
  cases v <;> rfl

@[simp] lemma setHasValue_memoryOutput :
    setHasValue (cellsOf provider toType output obj values) .memoryOutput false =
      cellsOf provider toType output obj values := by
  funext v
  cases v <;> rfl

@[simp] lemma modify_toType (obj' : β) :
    modify (cellsOf provider toType output obj values) .toType ({ · with mValue := obj' }) =
      cellsOf provider toType output obj' values := by
  funext v
  cases v <;> rfl

@[simp] lemma addData_memoryOutput (x : β) :
    addData (cellsOf provider toType output obj values) .memoryOutput x =
      cellsOf provider toType output obj (values ++ [x]) := by
  funext v
  cases v <;> rfl

end Cells

section Rounds
variable {β H : Type*} [Inhabited β] {c : CryptoPack} {decode : Bytes → Option (List Bytes)}
variable {nextDataBatch : Bytes → H → BatchAnswer × H} {parser : Bytes → Option β}
variable {p q : Provider} {h h' : H} {obj : β} {values : List β} {provider : Bool × Hpda.Status}

/-- The search is over and the provider has been processed. -/
def searched (provider : Bool × Hpda.Status) (obj : β) (values : List β) : State Node β :=
  ⟨cellsOf provider (false, .p) .p obj values, [], [.toType, .memoryOutput], .pop⟩

/-- The state in which a run ends. -/
def done (provider : Bool × Hpda.Status) (obj : β) (values : List β) : State Node β :=
  ⟨cellsOf provider (false, .ended) .ended obj values, [], [], .finished⟩

/-- The breadth-first part of a round: the provider is processed once. -/
lemma turns_search (n : ℕ) :
    turns c decode nextDataBatch parser (n + 3) (ready obj values) (p, h) =
      match p.process c decode nextDataBatch h with
      | (.threw, _, _) => .error .threw
      | (.ended, q, h') =>
        turns c decode nextDataBatch parser n (searched (false, .ended) obj values) (q, h')
      | (_, q, h') =>
        turns c decode nextDataBatch parser n (searched (true, .null) obj values) (q, h') := by
  have houtput : Loops.step (functors c decode nextDataBatch parser) [.memoryOutput]
      (ready obj values) (p, h) = .ok (⟨cellsOf (false, .null) (false, .toP) .p obj values,
        [.toType], [.memoryOutput], .bfs⟩, p, h) := by
    simp [Loops.step, Loops.bfsStep, Loops.visit, ready, functors, Node.predecessors, request,
      cellsOf]
  have htoType : Loops.step (functors c decode nextDataBatch parser) [.memoryOutput]
      ⟨cellsOf (false, .null) (false, .toP) .p obj values, [.toType], [.memoryOutput], .bfs⟩
      (p, h) = .ok (⟨cellsOf (false, .toP) (false, .p) .p obj values, [.provider],
        [.toType, .memoryOutput], .bfs⟩, p, h) := by
    simp [Loops.step, Loops.bfsStep, Loops.visit, functors, Node.predecessors, request, cellsOf]
  rw [turns, Loops.runSteps_succ houtput, Loops.runSteps_succ htoType]
  cases hp : p.process c decode nextDataBatch h with
  | mk out o =>
    cases out with
    | threw =>
      simp [Loops.runSteps, Loops.step, Loops.bfsStep, Loops.visit, functors, Node.predecessors,
        process, hp]
    | ended | advanced | accepted =>
      refine Loops.runSteps_succ ?_ n
      simp [Loops.step, Loops.bfsStep, Loops.visit, functors, Node.predecessors, request, process,
        hp, Processed.isTrue, searched, Node.holdsValue]

/-- `to_type` cannot go on: it is taken for its end, whether or not the provider has a value. -/
lemma turns_end (n : ℕ) (hprovider : provider.1 = true ∨ provider.2 = .ended)
    (hstop : toTypeProcess parser (searched provider obj values).cells q =
      .ok (false, (searched provider obj values).cells)) :
    turns c decode nextDataBatch parser (n + 3) (searched provider obj values) (q, h) =
      .ok (done provider obj values, q, h) := by
  have hrequest (t : Bool × Hpda.Status) : request [Node.provider]
      (cellsOf provider t .p obj values) = ([], cellsOf provider t .p obj values) := by
    rcases hprovider with hvalue | hended
    · simp [request, cellsOf, hvalue]
    · simp [request, cellsOf, hended]
  have htoType : Loops.step (functors c decode nextDataBatch parser) [.memoryOutput]
      (searched provider obj values) (q, h) =
      .ok (⟨cellsOf provider (false, .ended) .p obj values, [], [.memoryOutput], .pop⟩, q, h) := by
    simp only [searched] at hstop
    simp [Loops.step, Loops.popStep, functors, searched, process, hstop, Node.predecessors,
      resetDoneValue, hrequest]
  have houtput : Loops.step (functors c decode nextDataBatch parser) [.memoryOutput]
      ⟨cellsOf provider (false, .ended) .p obj values, [], [.memoryOutput], .pop⟩ (q, h) =
      .ok (⟨cellsOf provider (false, .ended) .ended obj values, [], [], .pop⟩, q, h) := by
    simp [Loops.step, Loops.popStep, functors, process, memoryOutputProcess, cellsOf,
      resetDoneValue, Node.predecessors, request]
  have hprepare : Loops.step (functors c decode nextDataBatch parser) [.memoryOutput]
      ⟨cellsOf provider (false, .ended) .ended obj values, [], [], .pop⟩ (q, h) =
      .ok (done provider obj values, q, h) := by
    simp [Loops.step, prepareStep, requestOutputs, cellsOf, done]
  rw [turns, Loops.runSteps_succ htoType, Loops.runSteps_succ houtput,
    Loops.runSteps_succ hprepare]
  exact Loops.runSteps_of_finished rfl n

lemma turns_next (n : ℕ) {data : Bytes} {obj' : β} (hvalue : q.outputValue = some data)
    (hparse : parser data = some obj') :
    turns c decode nextDataBatch parser (n + 3) (searched (true, .null) obj values) (q, h) =
      turns c decode nextDataBatch parser n (ready obj' (values ++ [obj'])) (q, h) := by
  have htoType : Loops.step (functors c decode nextDataBatch parser) [.memoryOutput]
      (searched (true, .null) obj values) (q, h) =
      .ok (⟨cellsOf (false, .null) (true, .null) .p obj' values, [], [.memoryOutput], .pop⟩,
        q, h) := by
    simp [Loops.step, Loops.popStep, functors, searched, process, toTypeProcess, cellsOf, hvalue,
      hparse, resetDoneValue, Node.holdsValue]
  have houtput : Loops.step (functors c decode nextDataBatch parser) [.memoryOutput]
      ⟨cellsOf (false, .null) (true, .null) .p obj' values, [], [.memoryOutput], .pop⟩ (q, h) =
      .ok (⟨cellsOf (false, .null) (false, .null) .null obj' (values ++ [obj']), [], [], .pop⟩,
        q, h) := by
    simp [Loops.step, Loops.popStep, functors, process, memoryOutputProcess, cellsOf,
      resetDoneValue, Node.holdsValue]
  rw [turns, Loops.runSteps_succ htoType, Loops.runSteps_succ houtput]
  refine Loops.runSteps_succ ?_ n
  simp [Loops.step, prepareStep, requestOutputs, cellsOf, ready]

/-- The breadth-first part of a round when the provider has an item. -/
lemma turns_item {out : Processed} (n : ℕ)
    (hp : p.process c decode nextDataBatch h = (out, q, h')) (hout : out.isTrue = true) :
    turns c decode nextDataBatch parser (n + 3) (ready obj values) (p, h) =
      turns c decode nextDataBatch parser n (searched (true, .null) obj values) (q, h') := by
  rw [turns_search, hp]
  cases out with
  | advanced | accepted => rfl
  | ended | threw => cases hout

lemma round_parsed {out : Processed} {x : Bytes} {obj' : β} (n : ℕ)
    (hp : p.process c decode nextDataBatch h = (out, q, h')) (hout : out.isTrue = true)
    (hvalue : q.outputValue = some x) (hparse : parser x = some obj') :
    turns c decode nextDataBatch parser (n + 6) (ready obj values) (p, h) =
      turns c decode nextDataBatch parser n (ready obj' (values ++ [obj'])) (q, h') := by
  rw [turns_item (n + 3) hp hout, turns_next n hvalue hparse]

/-- An item that does not parse ends the run as the end of the data does. -/
lemma round_stuck {out : Processed} {x : Bytes}
    (hp : p.process c decode nextDataBatch h = (out, q, h')) (hout : out.isTrue = true)
    (hvalue : q.outputValue = some x) (hparse : parser x = none) :
    turns c decode nextDataBatch parser 6 (ready obj values) (p, h) =
      .ok (done (true, .null) obj values, q, h') := by
  rw [turns_item 3 hp hout]
  refine turns_end 0 (Or.inl rfl) ?_
  simp [toTypeProcess, searched, cellsOf, hvalue, hparse]

lemma round_ended (hp : p.process c decode nextDataBatch h = (.ended, q, h')) :
    turns c decode nextDataBatch parser 6 (ready obj values) (p, h) =
      .ok (done (false, .ended) obj values, q, h') := by
  rw [turns_search 3, hp]
  refine turns_end 0 (Or.inr rfl) ?_
  simp [toTypeProcess, searched, cellsOf]

lemma round_threw (hp : p.process c decode nextDataBatch h = (.threw, q, h')) :
    turns c decode nextDataBatch parser 3 (ready obj values) (p, h) = .error .threw := by
  rw [turns_search 0, hp]

end Rounds

/-- What a call of `next_data_batch` is for the provider: a batch that is not empty, the end of
the data, or an exception. -/
inductive Served
  | batch (b : Bytes) (bs : List Bytes)
  | ended
  | threw
  deriving DecidableEq, Repr

section Host
variable {β H : Type*} (c : CryptoPack) (decode : Bytes → Option (List Bytes))
variable (nextDataBatch : Bytes → H → BatchAnswer × H) (kind : Kind) (e : Bytes)

def readBatch (data : Bytes) : Served :=
  match (new c kind e 0).openBatch c data with
  | .throws => .threw
  | .err _ => .ended
  | .ok msg =>
    match decode msg with
    | none => .ended
    | some [] => .ended
    | some (b :: bs) => .batch b bs

/-- The answer of the host to a provider of this kind and hash. -/
def serve (h : H) : Served × H :=
  let answer := nextDataBatch (new c kind e 0).batchKey h
  match answer.1 with
  | .ocallFails => (.threw, answer.2)
  | .status _ => (.ended, answer.2)
  | .batch data => (readBatch c decode kind e data, answer.2)

/-- The host begins with these batches. -/
def Gives : H → List (List Bytes) → Prop
  | _, [] => True
  | _, [] :: _ => False
  | h, (b :: bs) :: batches =>
    (serve c decode nextDataBatch kind e h).1 = .batch b bs ∧
      Gives (serve c decode nextDataBatch kind e h).2 batches

/-- A provider with a hash so far and items that are still to be handed out. -/
structure Stage (hash : Bytes) (rest : List Bytes) (p : Provider) : Prop where
  kind_eq : p.kind = kind
  expect : p.mExpectDataHash = e
  live : p.mDataReachEnd = false
  hash_eq : p.mActualDataHash = hash
  remaining : p.mItems.drop (p.mItemIndex + 1) = rest

variable {c decode nextDataBatch kind e} {p : Provider} {hash : Bytes} {h : H}

lemma stage_new (memory : ℕ) : Stage kind e (c.hash256 fidelius) [] (new c kind e memory) :=
  ⟨rfl, rfl, rfl, rfl, List.drop_nil⟩

lemma process_advances {x : Bytes} {rest : List Bytes} (hp : Stage kind e hash (x :: rest) p) :
    ∃ q, p.process c decode nextDataBatch h = (.advanced, q, h) ∧ q.outputValue = some x ∧
      Stage kind e hash rest q := by
  have hmore : p.mItemIndex + 1 < p.mItems.length := by
    by_contra hle
    have hnil := List.drop_eq_nil_of_le (Nat.not_lt.mp hle)
    rw [hp.remaining] at hnil
    cases hnil
  have hdrop := hp.remaining
  rw [List.drop_eq_getElem_cons hmore] at hdrop
  obtain ⟨hx, hrest⟩ := List.cons.inj hdrop
  refine ⟨{ p with mItemIndex := p.mItemIndex + 1 }, ?_, ?_, hp.kind_eq, hp.expect, hp.live,
    hp.hash_eq, hrest⟩
  · simp [Provider.process, hp.live, hmore]
  · rw [Provider.outputValue, List.getElem?_eq_getElem hmore, hx]

/-- What `process` makes of an answer of the host. -/
inductive Takes (c : CryptoPack) (kind : Kind) (e hash : Bytes) (p : Provider) :
    Served → Processed → Provider → Prop
  | threw : Takes c kind e hash p .threw .threw p
  | ended (q : Provider) (hash_eq : q.mActualDataHash = hash) (expect : q.mExpectDataHash = e) :
      Takes c kind e hash p .ended .ended q
  | batch (b : Bytes) (bs : List Bytes) (q : Provider) (value : q.outputValue = some b)
      (stage : Stage kind e (HashChain.extend c.hash256 hash (b :: bs)) bs q) :
      Takes c kind e hash p (.batch b bs) (.accepted (b :: bs)) q

/-- A provider that has handed out its batch asks the host. -/
lemma process_serves (hp : Stage kind e hash [] p) :
    ∃ out q, p.process c decode nextDataBatch h =
        (out, q, (serve c decode nextDataBatch kind e h).2) ∧
      Takes c kind e hash p (serve c decode nextDataBatch kind e h).1 out q := by
  have hspent : ¬ p.mItemIndex + 1 < p.mItems.length := by
    exact Nat.not_lt.mpr (List.drop_eq_nil_iff.mp hp.remaining)
  have hkey : p.batchKey = (new c kind e 0).batchKey := by
    simp only [Provider.batchKey, new, hp.kind_eq, hp.expect]
  have hopen (data : Bytes) : p.openBatch c data = (new c kind e 0).openBatch c data := by
    simp only [Provider.openBatch, new, hp.kind_eq]
  unfold serve readBatch Provider.process
  rw [if_neg (by simp [hp.live]), if_neg hspent, hkey]
  dsimp only
  cases (nextDataBatch (new c kind e 0).batchKey h).1 with
  | ocallFails => exact ⟨_, _, rfl, .threw⟩
  | status _ => exact ⟨_, _, rfl, .ended _ hp.hash_eq hp.expect⟩
  | batch data =>
    simp only [hopen]
    cases (new c kind e 0).openBatch c data with
    | throws => exact ⟨_, _, rfl, .threw⟩
    | err _ => exact ⟨_, _, rfl, .ended _ hp.hash_eq hp.expect⟩
    | ok msg =>
      unfold Provider.takeBatch
      dsimp only
      cases decode msg with
      | none => exact ⟨_, _, rfl, .ended _ hp.hash_eq hp.expect⟩
      | some items =>
        cases items with
        | nil => exact ⟨_, _, rfl, .ended _ hp.hash_eq hp.expect⟩
        | cons b bs =>
          refine ⟨_, _, rfl, .batch b bs _ rfl ⟨hp.kind_eq, hp.expect, hp.live, ?_, rfl⟩⟩
          rw [hp.hash_eq]

end Host

section Stream
variable {β H : Type*} (c : CryptoPack) (decode : Bytes → Option (List Bytes))
variable (nextDataBatch : Bytes → H → BatchAnswer × H) (parser : Bytes → Option β)
variable (kind : Kind) (e : Bytes)

/-- The next item of the stream: one that is held, or the first of the next batch. The batch is
hashed as a whole. -/
inductive Next : Bytes → List Bytes → H → Bytes → Bytes → List Bytes → H → Prop
  | held (hash x : Bytes) (rest : List Bytes) (h : H) : Next hash (x :: rest) h x hash rest h
  | fetched (hash b : Bytes) (bs : List Bytes) (h h' : H)
      (serves : serve c decode nextDataBatch kind e h = (.batch b bs, h')) :
      Next hash [] h b (HashChain.extend c.hash256 hash (b :: bs)) bs h'

/-- How the stream of items ends: with the hash and the objects that have then been made. -/
inductive Ends : Bytes → List Bytes → H → Bytes → List β → Prop
  | ended (hash : Bytes) (h h' : H)
      (serves : serve c decode nextDataBatch kind e h = (.ended, h')) : Ends hash [] h hash []
  | stuck {hash hash' x : Bytes} {rest rest' : List Bytes} {h h' : H}
      (next : Next c decode nextDataBatch kind e hash rest h x hash' rest' h')
      (fails : parser x = none) : Ends hash rest h hash' []
  | parsed {hash hash' hash'' x : Bytes} {rest rest' : List Bytes} {h h' : H} {obj : β}
      {out : List β} (next : Next c decode nextDataBatch kind e hash rest h x hash' rest' h')
      (parses : parser x = some obj) (more : Ends hash' rest' h' hash'' out) :
      Ends hash rest h hash'' (obj :: out)

variable {c decode nextDataBatch parser kind e} {p : Provider} {hash : Bytes} {rest : List Bytes}
  {h : H}

lemma process_next {hash' x : Bytes} {rest' : List Bytes} {h' : H} (hp : Stage kind e hash rest p)
    (hnext : Next c decode nextDataBatch kind e hash rest h x hash' rest' h') :
    ∃ out q, p.process c decode nextDataBatch h = (out, q, h') ∧ out.isTrue = true ∧
      q.outputValue = some x ∧ Stage kind e hash' rest' q := by
  cases hnext with
  | held =>
    obtain ⟨q, hprocess, hvalue, hq⟩ := process_advances hp
    exact ⟨_, q, hprocess, rfl, hvalue, hq⟩
  | fetched _ _ _ _ serves =>
    obtain ⟨out, q, hprocess, htakes⟩ := process_serves hp
    rw [serves] at hprocess htakes
    cases htakes with
    | batch _ _ _ value stage => exact ⟨_, q, hprocess, rfl, value, stage⟩

/-- Everything that a call of `process` can be for the stream. -/
lemma process_cases (parser : Bytes → Option β) (h : H) (hp : Stage kind e hash rest p) :
    (∃ h', p.process c decode nextDataBatch h = (.threw, p, h')) ∨
    (∃ q h', p.process c decode nextDataBatch h = (.ended, q, h') ∧
      Ends c decode nextDataBatch parser kind e hash rest h hash [] ∧
      q.mActualDataHash = hash ∧ q.mExpectDataHash = e) ∨
    ∃ x hash' rest' h', Next c decode nextDataBatch kind e hash rest h x hash' rest' h' := by
  cases rest with
  | cons x rest => exact Or.inr (Or.inr ⟨_, _, _, _, .held hash x rest h⟩)
  | nil =>
    obtain ⟨out, q, hprocess, htakes⟩ := process_serves hp
    cases hanswer : serve c decode nextDataBatch kind e h with
    | mk served h' =>
      rw [hanswer] at hprocess htakes
      cases htakes with
      | threw => exact Or.inl ⟨h', hprocess⟩
      | ended _ hash_eq expect =>
        exact Or.inr (Or.inl ⟨q, h', hprocess, .ended hash h h' hanswer, hash_eq, expect⟩)
      | batch b bs => exact Or.inr (Or.inr ⟨_, _, _, _, .fetched hash b bs h h' hanswer⟩)

variable [Inhabited β] {q : Provider} {st : State Node β}

/-- A run of the engine that comes to its end has followed the stream. -/
theorem ends_of_turns {n : ℕ} {obj : β} {values : List β} {h' : H} (hp : Stage kind e hash rest p)
    (hrun : turns c decode nextDataBatch parser n (ready obj values) (p, h) = .ok (st, q, h'))
    (hfin : st.phase = .finished) :
    ∃ out, Ends c decode nextDataBatch parser kind e hash rest h q.mActualDataHash out ∧
      delivered st = values ++ out ∧ q.mExpectDataHash = e := by
  induction n using Nat.strong_induction_on generalizing obj values p hash rest h with
  | _ n ih =>
    obtain ⟨after, hthrew⟩ | ⟨q', after, hended, hends, hhash, hexpect⟩ |
      ⟨x, hash', rest', after, hnext⟩ := process_cases parser h hp
    · exact absurd hfin (Loops.not_finish_of_error (round_threw hthrew) hrun)
    · obtain ⟨rfl, ho⟩ := Loops.finish_unique rfl (round_ended hended) hrun hfin
      cases ho
      refine ⟨[], ?_, (List.append_nil _).symm, hexpect⟩
      rw [hhash]
      exact hends
    · obtain ⟨out, q', hprocess, htrue, hvalue, hq⟩ := process_next hp hnext
      cases hparse : parser x with
      | none =>
        obtain ⟨rfl, ho⟩ := Loops.finish_unique rfl (round_stuck hprocess htrue hvalue hparse)
          hrun hfin
        cases ho
        refine ⟨[], ?_, (List.append_nil _).symm, hq.expect⟩
        rw [hq.hash_eq]
        exact .stuck hnext hparse
      | some obj' =>
        have hready : (ready obj' (values ++ [obj'])).phase ≠ .finished := by
          intro hphase
          cases hphase
        obtain ⟨k, rfl, hrest⟩ := Loops.finish_after hready
          (round_parsed 0 hprocess htrue hvalue hparse) hrun hfin
        obtain ⟨out', hends, hdelivered, hexpect⟩ := ih k (by omega) hq hrest
        refine ⟨obj' :: out', .parsed hnext hparse hends, ?_, hexpect⟩
        rw [hdelivered, List.append_assoc]
        rfl

/-- The engine follows the stream to its end. -/
theorem turns_of_ends {hash' : Bytes} {out : List β} (obj : β) (values : List β)
    (hends : Ends c decode nextDataBatch parser kind e hash rest h hash' out)
    (hp : Stage kind e hash rest p) :
    ∃ n st q h', turns c decode nextDataBatch parser n (ready obj values) (p, h) = .ok (st, q, h') ∧
      st.phase = .finished ∧ delivered st = values ++ out ∧ q.mActualDataHash = hash' ∧
      q.mExpectDataHash = e := by
  induction hends generalizing p obj values with
  | ended hash h h' serves =>
    obtain ⟨out, q, hprocess, htakes⟩ := process_serves hp
    rw [serves] at hprocess htakes
    cases htakes with
    | ended _ hash_eq expect =>
      exact ⟨6, _, q, h', round_ended hprocess, rfl, (List.append_nil _).symm, hash_eq, expect⟩
  | stuck next fails =>
    obtain ⟨out, q, hprocess, htrue, hvalue, hq⟩ := process_next hp next
    exact ⟨6, _, q, _, round_stuck hprocess htrue hvalue fails, rfl, (List.append_nil _).symm,
      hq.hash_eq, hq.expect⟩
  | parsed next parses more ih =>
    obtain ⟨out, q, hprocess, htrue, hvalue, hq⟩ := process_next hp next
    obtain ⟨n, st, q', h', hrun, hfin, hdelivered, hhash, hexpect⟩ := ih _ _ hq
    refine ⟨n + 6, st, q', h', ?_, hfin, ?_, hhash, hexpect⟩
    · rw [round_parsed n hprocess htrue hvalue parses]
      exact hrun
    · rw [hdelivered, List.append_assoc]
      rfl

end Stream

section Batches
variable {β H : Type*} (c : CryptoPack) (decode : Bytes → Option (List Bytes))
variable (nextDataBatch : Bytes → H → BatchAnswer × H) (parser : Bytes → Option β)
variable (kind : Kind) (e : Bytes)

/-- The first item that does not parse is in the last batch; `rest` is handed out before. -/
def StopsIn : (rest : List Bytes) → (batches : List (List Bytes)) → Prop
  | rest, [] => ∃ x ∈ rest, parser x = none
  | rest, batch :: batches => (∀ x ∈ rest, parser x ≠ none) ∧ StopsIn batch batches

/-- The host completes the dataset with the batch in which its first item that does not parse
lies. -/
def Truncates (h : H) (dataset : List Bytes) : Prop :=
  ∃ batches, Gives c decode nextDataBatch kind e h batches ∧ batches.flatten = dataset ∧
    StopsIn parser [] batches

variable {c decode nextDataBatch parser kind e} {hash : Bytes} {rest : List Bytes}
  {batches : List (List Bytes)} {h : H} {x : Bytes}

lemma stopsIn_cons_iff (hx : parser x ≠ none) :
    StopsIn parser (x :: rest) batches ↔ StopsIn parser rest batches := by
  cases batches with
  | nil => simp [StopsIn, hx]
  | cons batch batches => simp [StopsIn, hx]

lemma stopsIn_cons_none (hx : parser x = none) (h : StopsIn parser (x :: rest) batches) :
    batches = [] := by
  cases batches with
  | nil => rfl
  | cons batch batches => exact absurd hx (h.1 x List.mem_cons_self)

/-- The batches behind a stream that has ended: all their items have become objects, or the last
batch holds the first item that does not parse. -/
theorem batches_of_ends {hash' : Bytes} {out : List β}
    (hends : Ends c decode nextDataBatch parser kind e hash rest h hash' out) :
    ∃ batches, Gives c decode nextDataBatch kind e h batches ∧
      hash' = HashChain.extend c.hash256 hash batches.flatten ∧
      ((rest ++ batches.flatten).map parser = out.map some ∨ StopsIn parser rest batches) := by
  induction hends with
  | ended hash h h' serves => exact ⟨[], trivial, rfl, Or.inl rfl⟩
  | @stuck hash hash' x rest rest' h h' next fails =>
    cases next with
    | held => exact ⟨[], trivial, rfl, Or.inr ⟨x, List.mem_cons_self, fails⟩⟩
    | fetched _ _ _ _ serves =>
      refine ⟨[x :: rest'], ⟨by rw [serves], trivial⟩, ?_,
        Or.inr ⟨?_, x, List.mem_cons_self, fails⟩⟩
      · rw [List.flatten_singleton]
      · intro y hy
        cases hy
  | @parsed hash hash' hash'' x rest rest' h h' obj out next parses more ih =>
    obtain ⟨batches, hgives, hhash, hstream⟩ := ih
    have hx : parser x ≠ none := by simp [parses]
    cases next with
    | held =>
      refine ⟨batches, hgives, hhash, ?_⟩
      rcases hstream with hall | hstops
      · left
        rw [List.cons_append, List.map_cons, List.map_cons, parses, hall]
      · right
        exact (stopsIn_cons_iff hx).mpr hstops
    | fetched _ _ _ _ serves =>
      refine ⟨(x :: rest') :: batches, ⟨by rw [serves], by rw [serves]; exact hgives⟩, ?_, ?_⟩
      · rw [hhash, List.flatten_cons, HashChain.extend_append]
      · rcases hstream with hall | hstops
        · left
          rw [List.nil_append, List.flatten_cons, List.cons_append, List.map_cons, List.map_cons,
            parses, hall]
        · refine Or.inr ⟨?_, (stopsIn_cons_iff hx).mpr hstops⟩
          intro y hy
          cases hy

/-- One held item in front of a stream that stops. -/
lemma ends_held {hash' : Bytes} {n : ℕ} (hx : parser x ≠ none)
    (hends : ∃ out, Ends c decode nextDataBatch parser kind e hash rest h hash' out ∧
      out.length < n) :
    ∃ out, Ends c decode nextDataBatch parser kind e hash (x :: rest) h hash' out ∧
      out.length < n + 1 := by
  obtain ⟨out, hout, hlt⟩ := hends
  obtain ⟨obj, hobj⟩ := Option.ne_none_iff_exists'.mp hx
  exact ⟨obj :: out, .parsed (.held hash x rest h) hobj hout, Nat.succ_lt_succ hlt⟩

/-- A stream stops at the first item that does not parse, with fewer objects than items, after
the batch of that item has been hashed. -/
theorem ends_of_stopsIn (hash : Bytes) (hgives : Gives c decode nextDataBatch kind e h batches)
    (hstops : StopsIn parser rest batches) :
    ∃ out, Ends c decode nextDataBatch parser kind e hash rest h
        (HashChain.extend c.hash256 hash batches.flatten) out ∧
      out.length < (rest ++ batches.flatten).length := by
  induction batches generalizing rest h hash with
  | nil =>
    induction rest with
    | nil =>
      obtain ⟨x, hx, -⟩ := hstops
      cases hx
    | cons x rest ih =>
      by_cases hx : parser x = none
      · exact ⟨[], .stuck (.held hash x rest h) hx, Nat.succ_pos _⟩
      · exact ends_held hx (ih ((stopsIn_cons_iff hx).mp hstops))
  | cons batch batches ih =>
    induction rest with
    | cons x rest ihrest =>
      have hx := hstops.1 x List.mem_cons_self
      exact ends_held hx (ihrest ((stopsIn_cons_iff hx).mp hstops))
    | nil =>
      cases batch with
      | nil => exact hgives.elim
      | cons b bs =>
        have hserves : serve c decode nextDataBatch kind e h =
            (.batch b bs, (serve c decode nextDataBatch kind e h).2) := by
          rw [← hgives.1]
        rw [List.flatten_cons, HashChain.extend_append]
        by_cases hb : parser b = none
        · cases stopsIn_cons_none hb hstops.2
          exact ⟨[], .stuck (.fetched hash b bs h _ hserves) hb, Nat.succ_pos _⟩
        · obtain ⟨out, hout, hlt⟩ := ih _ hgives.2 ((stopsIn_cons_iff hb).mp hstops.2)
          obtain ⟨obj, hobj⟩ := Option.ne_none_iff_exists'.mp hb
          exact ⟨obj :: out, .parsed (.fetched hash b bs h _ hserves) hobj hout,
            Nat.succ_lt_succ hlt⟩

end Batches

section Dataset
variable {β H : Type*} [Inhabited β] (c : CryptoPack) (decode : Bytes → Option (List Bytes))
variable (nextDataBatch : Bytes → H → BatchAnswer × H) (parser : Bytes → Option β)

lemma checkActualDataHash_ok {p : Provider} :
    p.checkActualDataHash = .ok () ↔ p.mActualDataHash = p.mExpectDataHash := by
  unfold Provider.checkActualDataHash Provider.dataHash
  split_ifs with hne
  · simp [hne]
  · simpa using hne

/-- Every run that ends with a passing hash check has delivered the parse of each item of the
dataset, in order. -/
def Delivers (kind : Kind) (memory : ℕ) (h : H) (dataset : List Bytes) : Prop :=
  ∀ (st : State Node β) q, Finishes c decode nextDataBatch parser
      (new c kind (HashChain.chain c.hash256 fidelius dataset) memory) h st q →
    q.checkActualDataHash = .ok () → (delivered st).map some = dataset.map parser

/-- A dataset is delivered unless the host completes it with the batch in which its first item
that does not parse lies; then it is cut off at that item. The other exception are colliding
inputs of the hash, for the items that the host has given. -/
theorem dataset_delivered_iff (kind : Kind) (memory : ℕ) (h : H) (dataset : List Bytes) :
    (Delivers c decode nextDataBatch parser kind memory h dataset →
      ¬ Truncates c decode nextDataBatch parser kind
        (HashChain.chain c.hash256 fidelius dataset) h dataset) ∧
    (¬ Truncates c decode nextDataBatch parser kind
        (HashChain.chain c.hash256 fidelius dataset) h dataset →
      Delivers c decode nextDataBatch parser kind memory h dataset ∨
      ∃ batches, Gives c decode nextDataBatch kind (HashChain.chain c.hash256 fidelius dataset) h
          batches ∧
        HashChain.Collision c.hash256 fidelius batches.flatten dataset) := by
  constructor
  · rintro hdelivers ⟨batches, hgives, hflatten, hstops⟩
    obtain ⟨out, hends, hlt⟩ := ends_of_stopsIn (c.hash256 fidelius) hgives hstops
    obtain ⟨n, st, q, h', hrun, hfin, hout, hhash, hexpect⟩ :=
      turns_of_ends default [] hends (stage_new memory)
    have hcheck : q.checkActualDataHash = .ok () := by
      rw [checkActualDataHash_ok, hhash, hexpect, hflatten]
      rfl
    have hall := congrArg List.length (hdelivers st q ⟨n, h', hrun, hfin⟩ hcheck)
    rw [List.length_map, List.length_map, hout] at hall
    rw [List.nil_append, hflatten] at hlt
    exact absurd hall (Nat.ne_of_lt hlt)
  · intro hnot
    by_cases hcollision : ∃ batches, Gives c decode nextDataBatch kind
        (HashChain.chain c.hash256 fidelius dataset) h batches ∧
        HashChain.Collision c.hash256 fidelius batches.flatten dataset
    · exact Or.inr hcollision
    · left
      rintro st q ⟨n, h', hrun, hfin⟩ hcheck
      obtain ⟨out, hends, hout, hexpect⟩ := ends_of_turns (stage_new memory) hrun hfin
      obtain ⟨batches, hgives, hhash, hstream⟩ := batches_of_ends hends
      have hchain : HashChain.chain c.hash256 fidelius batches.flatten =
          HashChain.chain c.hash256 fidelius dataset := by
        rw [← hexpect, ← checkActualDataHash_ok.mp hcheck, hhash]
        rfl
      rcases HashChain.chain_eq_or_collision c.hash_size (by decide) hchain with heq | hbad
      · rcases hstream with hall | hstops
        · rw [hout, ← heq]
          exact hall.symm
        · exact absurd ⟨batches, hgives, heq, hstops⟩ hnot
      · exact absurd ⟨batches, hgives, hbad⟩ hcollision

end Dataset

section Demo

/-- Items of one byte, of which `[2]` does not parse. -/
def demoParser (x : Bytes) : Option Bytes := if x = [2] then none else some x

def demoDecode (msg : Bytes) : Option (List Bytes) := some (msg.map fun b => [b])

def demoSealed : Kind := sealedKind CryptoPack.plain (List.replicate 32 1) []

/-- A host that gives three items in one sealed batch. -/
def oneBatch : Bytes → ℕ → BatchAnswer × ℕ
  | _, 0 => (.batch (CryptoPack.plainEnvelope (List.replicate 32 1) cryptoPrefixArbitrary ++
      [1, 2, 3]), 1)
  | _, n => (.status .sealedFileReachEnd, n)

/-- The second of three items does not parse: the first one is all that is delivered, and the
hash check passes. -/
theorem bad_item_truncates_dataset :
    ∃ (st : State Node Bytes) (q : Provider),
      Finishes CryptoPack.plain demoDecode oneBatch demoParser
        (new CryptoPack.plain demoSealed
          (HashChain.chain CryptoPack.plain.hash256 fidelius [[1], [2], [3]]) 0) 0 st q ∧
      q.checkActualDataHash = .ok () ∧ delivered st = [[1]] ∧
      ¬ (delivered st).map some = [[1], [2], [3]].map demoParser := by
  refine ⟨_, _, ⟨12, _, rfl, rfl⟩, by decide, rfl, by decide⟩

end Demo
end PrivacyComputing.Parsing
