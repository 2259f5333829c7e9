import Mathlib.Algebra.Ring.Nat
import PrivacyComputing.CryptoPack
import PrivacyComputing.HandleTable

/-! `cxxfile` of the enclave and the calls it makes to the host, where the streams are kept in a
table under the numbers that the enclave holds. The streams themselves and what they do to the
files of the host are a parameter. -/
namespace PrivacyComputing.CxxFile
open HandleTable

/-- The flags of `std::ios_base::openmode`. -/
structure OpenMode where
  app : Bool
  ate : Bool
  binary : Bool
  input : Bool
  output : Bool
  trunc : Bool
  deriving DecidableEq, Repr

/-- The mode that `fopen_ocall` opens with. The variable is not initialised, so that flags may be
set which the caller did not ask for; `trunc` is not passed on. -/
def hostMode (mode : ℕ) (junk : OpenMode) : OpenMode where
  app := junk.app || mode &&& 0x1 != 0
  ate := junk.ate || mode &&& 0x2 != 0
  binary := junk.binary || mode &&& 0x4 != 0
  input := junk.input || mode &&& 0x8 != 0
  output := junk.output || mode &&& 0x10 != 0
  trunc := junk.trunc

/-- What is done with an open stream. -/
inductive Op
  | flush
  | read (size : ℕ)
  | write (bytes : Bytes)
  | seekg (offset : ℤ) (dir : ℕ)
  | tellg
  | seekp (offset : ℤ) (dir : ℕ)
  | tellp
  | eof
  | good
  | fail
  | bad
  | clear
  deriving DecidableEq, Repr

inductive Answer
  | void
  | bytes (b : Bytes)
  | position (n : ℤ)
  | flag (b : Bool)
  | fopenFailed
  | fileNotOpen
  deriving DecidableEq, Repr

/-- `std::fstream` on the files of the host. -/
structure Fstream (World Stream : Type) where
  fresh : Stream
  openFile : World → Stream → (filename : Bytes) → OpenMode → World × Stream
  isOpen : Stream → Bool
  close : World → Stream → World × Stream
  perform : World → Stream → Op → World × Stream × Answer

/-- What a call of the host answers when the number is in no entry. -/
def missing : Op → Answer
  | .tellg | .tellp => .position 0
  | .eof | .fail | .bad => .flag true
  | .good => .flag false
  | _ => .void

/-- What a `cxxfile` that is not open answers by itself. -/
def notOpen : Op → Answer
  | .eof | .fail | .bad => .flag true
  | .good => .flag false
  | .clear => .void
  | _ => .fileNotOpen

/-- The C string of a file name. -/
def cString (filename : Bytes) : Bytes := filename.takeWhile (· != 0)

/-- One call of a member of one of the enclave's `cxxfile` objects. An `open` says which flags the
uninitialised mode has. -/
inductive Call (Object : Type)
  | openFile (o : Object) (filename : Bytes) (mode : ℕ) (junk : OpenMode)
  | close (o : Object)
  | perform (o : Object) (op : Op)

section Bridge
variable {World Stream Object : Type} [DecidableEq Object] (io : Fstream World Stream)

structure Host (World Stream : Type) where
  world : World
  files : Table Stream

def fopenOcall (h : Host World Stream) (filename : Bytes) (mode : ℕ) (junk : OpenMode) :
    ℕ × Host World Stream :=
  let curId := h.files.next
  -- `insert` keeps an entry that is there
  let stream := (h.files.entries curId).getD io.fresh
  let r := io.openFile h.world stream filename (hostMode mode junk)
  let host : Host World Stream :=
    ⟨r.1, ⟨(curId + 1) % 2 ^ 32, Function.update h.files.entries curId (some r.2)⟩⟩
  (if io.isOpen r.2 then curId else 0, host)

def fcloseOcall (h : Host World Stream) (stream : ℕ) : Host World Stream :=
  match h.files.entries stream with
  | none => h
  | some s => ⟨(io.close h.world s).1, h.files.put stream none⟩

/-- The other calls find the entry and pass the work on. -/
def performOcall (h : Host World Stream) (stream : ℕ) (op : Op) : Answer × Host World Stream :=
  match h.files.entries stream with
  | none => (missing op, h)
  | some s =>
    let r := io.perform h.world s op
    (r.2.2, ⟨r.1, h.files.put stream (some r.2.1)⟩)

/-- The host and `m_stream_id` of every object. -/
structure System (World Stream Object : Type) where
  host : Host World Stream
  streamId : Object → ℕ

def step (s : System World Stream Object) : Call Object → Answer × System World Stream Object
  | .openFile o filename mode junk =>
    let r := fopenOcall io s.host (cString filename) mode junk
    if r.1 = 0 then (.fopenFailed, { s with host := r.2 })
    else (.void, ⟨r.2, Function.update s.streamId o r.1⟩)
  | .close o =>
    if s.streamId o = 0 then (.fileNotOpen, s)
    else (.void, ⟨fcloseOcall io s.host (s.streamId o), Function.update s.streamId o 0⟩)
  | .perform o op =>
    if s.streamId o = 0 then (notOpen op, s)
    else
      let r := performOcall io s.host (s.streamId o) op
      (r.1, { s with host := r.2 })

def run : System World Stream Object → List (Call Object) →
    List Answer × System World Stream Object
  | s, [] => ([], s)
  | s, call :: calls =>
    let r := step io s call
    let rest := run r.2 calls
    (r.1 :: rest.1, rest.2)

/-- Before the first call, with `g_cxxfile_stream_id` at one. -/
def start (world : World) : System World Stream Object := ⟨⟨world, empty⟩, fun _ => 0⟩

/-! What the bridge is for: every object has a stream of its own. -/

structure Private (World Stream Object : Type) where
  world : World
  stream : Object → Option Stream

def privateStep (s : Private World Stream Object) :
    Call Object → Answer × Private World Stream Object
  | .openFile o filename mode junk =>
    let r := io.openFile s.world io.fresh (cString filename) (hostMode mode junk)
    if io.isOpen r.2 then (.void, ⟨r.1, Function.update s.stream o (some r.2)⟩)
    else (.fopenFailed, { s with world := r.1 })
  | .close o =>
    match s.stream o with
    | none => (.fileNotOpen, s)
    | some stream => (.void, ⟨(io.close s.world stream).1, Function.update s.stream o none⟩)
  | .perform o op =>
    match s.stream o with
    | none => (notOpen op, s)
    | some stream =>
      let r := io.perform s.world stream op
      (r.2.2, ⟨r.1, Function.update s.stream o (some r.2.1)⟩)

def privateRun : Private World Stream Object → List (Call Object) →
    List Answer × Private World Stream Object
  | s, [] => ([], s)
  | s, call :: calls =>
    let r := privateStep io s call
    let rest := privateRun r.2 calls
    (r.1 :: rest.1, rest.2)

/-- The calls that take a number from the counter. -/
def opens : List (Call Object) → ℕ
  | [] => 0
  | .openFile _ _ _ _ :: calls => opens calls + 1
  | _ :: calls => opens calls

/-- The table holds what every object would hold by itself. -/
structure Simulates (s : System World Stream Object) (p : Private World Stream Object) : Prop where
  world_eq : s.host.world = p.world
  owns : Owns s.host.files s.streamId p.stream

variable {io} {s : System World Stream Object} {p : Private World Stream Object}

theorem step_openFile (h : Simulates s p) (hroom : s.host.files.next + 1 < 2 ^ 32) (o : Object)
    (filename : Bytes) (mode : ℕ) (junk : OpenMode) :
    (step io s (.openFile o filename mode junk)).1 =
      (privateStep io p (.openFile o filename mode junk)).1 ∧
    (step io s (.openFile o filename mode junk)).2.host.files.next = s.host.files.next + 1 ∧
    Simulates (step io s (.openFile o filename mode junk)).2
      (privateStep io p (.openFile o filename mode junk)).2 := by
  have hfresh := h.owns.fresh s.host.files.next le_rfl
  have hpositive := h.owns.positive
  have hnext : (s.host.files.next + 1) % 2 ^ 32 = s.host.files.next + 1 := Nat.mod_eq_of_lt hroom
  simp only [step, fopenOcall, privateStep, hfresh, Option.getD_none, h.world_eq, hnext]
  by_cases hopen : io.isOpen
      (io.openFile p.world io.fresh (cString filename) (hostMode mode junk)).2 = true
  · rw [if_pos hopen, if_pos hopen, if_neg (by omega)]
    exact ⟨rfl, rfl, rfl, h.owns.give o _⟩
  · rw [if_neg hopen, if_neg hopen, if_pos rfl]
    exact ⟨rfl, rfl, rfl, h.owns.leave _⟩

theorem step_close (h : Simulates s p) (o : Object) :
    (step io s (.close o)).1 = (privateStep io p (.close o)).1 ∧
    (step io s (.close o)).2.host.files.next = s.host.files.next ∧
    Simulates (step io s (.close o)).2 (privateStep io p (.close o)).2 := by
  simp only [step, privateStep]
  by_cases hzero : s.streamId o = 0
  · rw [if_pos hzero, h.owns.closed_of_zero hzero]
    exact ⟨rfl, rfl, h⟩
  · obtain ⟨stream, hown, hentry⟩ := h.owns.exists_of_ne_zero hzero
    simp only [if_neg hzero, hown, fcloseOcall, hentry, h.world_eq]
    exact ⟨trivial, rfl, rfl, h.owns.drop o⟩

theorem step_perform (h : Simulates s p) (o : Object) (op : Op) :
    (step io s (.perform o op)).1 = (privateStep io p (.perform o op)).1 ∧
    (step io s (.perform o op)).2.host.files.next = s.host.files.next ∧
    Simulates (step io s (.perform o op)).2 (privateStep io p (.perform o op)).2 := by
  simp only [step, privateStep]
  by_cases hzero : s.streamId o = 0
  · rw [if_pos hzero, h.owns.closed_of_zero hzero]
    exact ⟨rfl, rfl, h⟩
  · obtain ⟨stream, hown, hentry⟩ := h.owns.exists_of_ne_zero hzero
    simp only [if_neg hzero, hown, performOcall, hentry, h.world_eq]
    exact ⟨trivial, rfl, rfl, h.owns.change hown _⟩

theorem run_simulates (calls : List (Call Object)) (h : Simulates s p)
    (hroom : s.host.files.next + opens calls < 2 ^ 32) :
    (run io s calls).1 = (privateRun io p calls).1 ∧
    Simulates (run io s calls).2 (privateRun io p calls).2 := by
  induction calls generalizing s p with
  | nil => exact ⟨rfl, h⟩
  | cons call calls ih =>
    have hstep : (step io s call).1 = (privateStep io p call).1 ∧
        (step io s call).2.host.files.next + opens calls =
          s.host.files.next + opens (call :: calls) ∧
        Simulates (step io s call).2 (privateStep io p call).2 := by
      cases call with
      | openFile o filename mode junk =>
        simp only [opens] at hroom ⊢
        obtain ⟨hanswer, hnext, hsim⟩ := step_openFile h (by omega) o filename mode junk
        exact ⟨hanswer, by omega, hsim⟩
      | close o =>
        obtain ⟨hanswer, hnext, hsim⟩ := step_close h o
        exact ⟨hanswer, by rw [hnext]; rfl, hsim⟩
      | perform o op =>
        obtain ⟨hanswer, hnext, hsim⟩ := step_perform h o op
        exact ⟨hanswer, by rw [hnext]; rfl, hsim⟩
    obtain ⟨hanswer, hnext, hsim⟩ := hstep
    obtain ⟨hrest, hend⟩ := ih hsim (by omega)
    simp only [run, privateRun, hanswer, hrest]
    exact ⟨trivial, hend⟩

/-- However the calls of the objects interleave, every object is answered as if it had a stream
of its own on the files of the host, as long as the counter does not wrap around. Files that could
not be opened, and streams whose object was opened again, stay in the table and disturb nobody. -/
theorem run_start_eq_private (world : World) (calls : List (Call Object))
    (hroom : opens calls + 1 < 2 ^ 32) :
    (run io (start world) calls).1 = (privateRun io ⟨world, fun _ => none⟩ calls).1 ∧
    (run io (start world) calls).2.host.world =
      (privateRun io ⟨world, fun _ => none⟩ calls).2.world := by
  have hstart : Simulates (start world : System World Stream Object) ⟨world, fun _ => none⟩ :=
    ⟨rfl, owns_empty⟩
  have hnext : (start world : System World Stream Object).host.files.next = 1 := rfl
  obtain ⟨hanswers, hsim⟩ := @run_simulates _ _ _ _ io _ _ calls hstart (by rw [hnext]; omega)
  exact ⟨hanswers, hsim.world_eq⟩

/-- A host with one file, whose streams have only a position. -/
def oneFile : Fstream Bytes (Bool × ℕ) where
  fresh := (false, 0)
  openFile world _ filename _ := (world, (filename == [102], 0))
  isOpen := Prod.fst
  close world stream := (world, (false, stream.2))
  perform world stream
    | .read size => (world, (stream.1, stream.2 + size), .bytes ((world.drop stream.2).take size))
    | _ => (world, stream, .void)

/-- Two objects on the one file. -/
def bothObjects : List (Call Bool) :=
  let mode : OpenMode := ⟨false, false, false, false, false, false⟩
  [.openFile true [102] 8 mode, .openFile false [102] 8 mode, .perform true (.read 2),
    .perform false (.read 1), .close true]

theorem run_start_eq_private_two :
    (run oneFile (start [1, 2, 3]) bothObjects).1 =
      (privateRun oneFile ⟨[1, 2, 3], fun _ => none⟩ bothObjects).1 ∧
    (run oneFile (start [1, 2, 3]) bothObjects).2.host.world =
      (privateRun oneFile ⟨[1, 2, 3], fun _ => none⟩ bothObjects).2.world :=
  run_start_eq_private [1, 2, 3] bothObjects (by decide)

end Bridge

end PrivacyComputing.CxxFile
