import PrivacyComputing.BlockFileLeadingRead
import PrivacyComputing.RunsHistory

/-! Several sessions on one block file object, of either layout. The object keeps its
header, its block table and two validity flags from one session to the next; `close`
drops the table and the flags, but not the header. -/
namespace PrivacyComputing.BlockFile.Sessions
open Calls FileStream

inductive Layout
  | leading
  | trailing
  deriving DecidableEq, Repr

/-- The calls on a block file object; `disk` is the content of the file that is opened. -/
inductive Call
  | openForRead (disk : Option Bytes)
  | openForWrite
  | appendItem (data : Bytes)
  | nextItem (buf : Option ℕ)
  | itemNumber
  | close
  deriving DecidableEq, Repr

inductive Reply
  | done
  | item (r : ItemResult)
  | number (n : ℕ)
  | failed (f : Failure)
  deriving DecidableEq, Repr

variable (L : Layout) (P : Params)

def openForRead (disk : Option Bytes) : FileM Unit :=
  match L with
  | .leading => Leading.openForRead P disk
  | .trailing => BlockFile.openForRead P disk

def resetReadItem : FileM Unit :=
  match L with
  | .leading => Leading.resetReadItem P
  | .trailing => BlockFile.resetReadItem P

def appendItem (data : Bytes) : FileM Unit :=
  match L with
  | .leading => Leading.appendItem P data
  | .trailing => BlockFile.appendItem P data

def itemNumber : FileM ℕ :=
  match L with
  | .leading => Leading.itemNumber P
  | .trailing => BlockFile.itemNumber P

def close : FileM Unit :=
  match L with
  | .leading => Leading.close
  | .trailing => BlockFile.close

def perform : Call → FileM Reply
  | .openForRead disk => do openForRead L P disk; return .done
  | .openForWrite => do openForWrite; return .done
  | .appendItem data => do appendItem L P data; return .done
  | .nextItem buf => do return .item (← nextItem buf)
  | .itemNumber => do return .number (← itemNumber L P)
  | .close => do close L; return .done

/-- A call that throws leaves the object as it is then. -/
def reply (o : FileObject) (c : Call) : Reply × FileObject :=
  match perform L P c o with
  | .ok r o' => (r, o')
  | .error f o' => (.failed f, o')

def step (o : FileObject) (c : Call) : FileObject := (reply L P o c).2

/-- What is seen of a sequence of calls: each call's reply and the bytes of the file after it. -/
def behaviour : FileObject → List Call → List (Reply × Bytes)
  | _, [] => []
  | o, c :: calls => ((reply L P o c).1, (step L P o c).mFile.content) ::
      behaviour (step L P o c) calls

/-- Items are appended, read and counted, and `close` is called, in a session only; a file
can be opened at any time. -/
def InSession (o : FileObject) : Call → Prop
  | .openForRead _ => True
  | .openForWrite => True
  | .appendItem _ => o.mFile.isOpen = true ∧ o.mFile.canWrite = true
  | .nextItem _ => o.mFile.isOpen = true ∧ o.mFile.canRead = true
  | .itemNumber => o.mFile.isOpen = true
  | .close => o.mFile.isOpen = true

instance (o : FileObject) : ∀ c, Decidable (InSession o c)
  | .openForRead _ => .isTrue trivial
  | .openForWrite => .isTrue trivial
  | .appendItem _ => inferInstanceAs (Decidable (_ ∧ _))
  | .nextItem _ => inferInstanceAs (Decidable (_ ∧ _))
  | .itemNumber => inferInstanceAs (Decidable (_ = _))
  | .close => inferInstanceAs (Decidable (_ = _))

section Open

/-- A call that leaves an open file open, whether it returns or throws. -/
def StaysOpen {α : Type} (m : FileM α) : Prop :=
  Guards (fun o => o.mFile.isOpen = true) (fun o => o.mFile.isOpen = true) m

variable {α β : Type}

lemma StaysOpen.bind {m : FileM α} {k : α → FileM β} (h : StaysOpen m)
    (hk : ∀ a, StaysOpen (k a)) : StaysOpen (m >>= k) := Guards.bind h hk

lemma StaysOpen.get_bind {k : FileObject → FileM α} (h : ∀ o, StaysOpen (k o)) :
    StaysOpen (get >>= k) := Guards.get_bind h

lemma StaysOpen.pure (a : α) : StaysOpen (pure a) := Guards.of_pure

lemma StaysOpen.throw (f : Failure) : StaysOpen (throw f : FileM α) :=
  Guards.of_throw fun _ h => h

lemma StaysOpen.modify {f : FileObject → FileObject}
    (h : ∀ o, (f o).mFile.isOpen = o.mFile.isOpen) : StaysOpen (modify f) :=
  Guards.of_modify fun o ho => (h o).trans ho

lemma StaysOpen.onFile {f : FileStream → FileStream} (h : ∀ s, (f s).isOpen = s.isOpen) :
    StaysOpen (onFile f) := StaysOpen.modify fun o => h o.mFile

lemma StaysOpen.fromFile {f : FileStream → α × FileStream}
    (h : ∀ s, (f s).2.isOpen = s.isOpen) : StaysOpen (fromFile f) :=
  fun o ho => (h o.mFile).trans ho

lemma StaysOpen.ite {c : Prop} [Decidable c] {m m' : FileM α} (h : StaysOpen m)
    (h' : StaysOpen m') : StaysOpen (if c then m else m') := by
  split_ifs
  · exact h
  · exact h'

lemma readBlocks_staysOpen (n : ℕ) : StaysOpen (readBlocks n) := by
  induction n with
  | zero => exact .pure ()
  | succ n ih =>
    exact .bind (.fromFile fun s => isOpen_read s _) fun _ =>
      .bind (.modify fun _ => rfl) fun _ => ih

/-- The end of both `read_header`. -/
lemma restore_staysOpen (prev : ℤ) : StaysOpen (do
    modify fun o => { o with mIsHeaderValid := true }
    onFile (·.seekg prev .beg)) :=
  .bind (.modify fun _ => rfl) fun _ => .onFile fun s => isOpen_seekg s _ _

lemma trailing_readHeader_staysOpen : StaysOpen (BlockFile.readHeader P) := by
  unfold BlockFile.readHeader
  apply StaysOpen.get_bind
  intro o
  apply StaysOpen.ite (.pure ())
  apply StaysOpen.bind (.fromFile isOpen_tellg)
  intro prev
  apply StaysOpen.bind (.onFile fun s => isOpen_seekg s _ _)
  intro _
  apply StaysOpen.bind (.fromFile isOpen_tellg)
  intro len
  have hend := restore_staysOpen prev
  refine StaysOpen.ite (.bind (.modify fun _ => rfl) fun _ =>
    .bind (.onFile fun s => isOpen_seekg s _ _) fun _ => .pure ()) ?_
  apply StaysOpen.bind (.onFile fun s => isOpen_seekg s _ _)
  intro _
  apply StaysOpen.bind (.fromFile fun s => isOpen_read s _)
  intro data
  have hcheck : StaysOpen (do
      let o ← get
      if o.mHeader.magicNumber ≠ P.magicNumber then throw .invalidBlockfile
      modify fun o => { o with mIsHeaderValid := true }
      onFile (·.seekg prev .beg)) :=
    .get_bind fun _ => .ite (.bind (.throw _) fun _ => hend) hend
  exact .ite (.bind (.modify fun _ => rfl) fun _ => hcheck) hcheck

lemma leading_readHeader_staysOpen : StaysOpen (Leading.readHeader P) := by
  unfold Leading.readHeader
  apply StaysOpen.get_bind
  intro o
  apply StaysOpen.ite (.pure ())
  apply StaysOpen.bind (.fromFile isOpen_tellg)
  intro prev
  apply StaysOpen.bind (.onFile fun s => isOpen_seekg s _ _)
  intro _
  apply StaysOpen.bind (.fromFile fun s => isOpen_read s _)
  intro data
  have hend := restore_staysOpen prev
  exact .bind (.modify fun _ => rfl) fun _ => .get_bind fun _ =>
    .ite (.bind (.throw _) fun _ => hend) hend

lemma trailing_readAllBlockInfo_staysOpen : StaysOpen (BlockFile.readAllBlockInfo P) := by
  unfold BlockFile.readAllBlockInfo
  apply StaysOpen.bind (trailing_readHeader_staysOpen P)
  intro _
  apply StaysOpen.get_bind
  intro o
  apply StaysOpen.ite (.pure ())
  apply StaysOpen.bind (.fromFile isOpen_tellg)
  intro prev
  exact .get_bind fun o => .bind (.onFile fun s => isOpen_seekg s _ _) fun _ =>
    .bind (readBlocks_staysOpen _) fun _ => .bind (.modify fun _ => rfl) fun _ =>
    .onFile fun s => isOpen_seekg s _ _

lemma leading_readAllBlockInfo_staysOpen : StaysOpen (Leading.readAllBlockInfo P) := by
  unfold Leading.readAllBlockInfo
  apply StaysOpen.bind (leading_readHeader_staysOpen P)
  intro _
  apply StaysOpen.get_bind
  intro o
  apply StaysOpen.ite (.pure ())
  exact .bind (.onFile fun s => isOpen_seekg s _ _) fun _ => .get_bind fun o =>
    .bind (readBlocks_staysOpen _) fun _ => .modify fun _ => rfl

lemma resetReadItem_staysOpen : StaysOpen (resetReadItem L P) := by
  cases L with
  | leading =>
    exact .bind (.onFile isOpen_clear) fun _ => .bind (leading_readHeader_staysOpen P) fun _ =>
      .bind (leading_readAllBlockInfo_staysOpen P) fun _ => .onFile fun s => isOpen_seekg s _ _
  | trailing =>
    exact .bind (.onFile isOpen_clear) fun _ => .bind (trailing_readHeader_staysOpen P) fun _ =>
      .bind (trailing_readAllBlockInfo_staysOpen P) fun _ => .onFile fun s => isOpen_seekg s _ _

lemma appendItem_staysOpen (data : Bytes) : StaysOpen (appendItem L P data) := by
  cases L with
  | leading =>
    exact .bind (leading_readHeader_staysOpen P) fun _ =>
      .bind (leading_readAllBlockInfo_staysOpen P) fun _ => .bind (.onFile isOpen_clear) fun _ =>
      .bind (.modify fun _ => rfl) fun _ => .get_bind fun o =>
      .bind (.onFile fun s => isOpen_seekp s _ _) fun _ =>
      .bind (.onFile fun s => isOpen_write s _) fun _ =>
      .bind (.onFile fun s => isOpen_seekp s _ _) fun _ =>
      .bind (.onFile fun s => isOpen_write s _) fun _ =>
      .bind (.onFile fun s => isOpen_seekp s _ _) fun _ =>
      .bind (.onFile fun s => isOpen_write s _) fun _ => .onFile fun s => isOpen_write s _
  | trailing =>
    exact .bind (trailing_readHeader_staysOpen P) fun _ =>
      .bind (trailing_readAllBlockInfo_staysOpen P) fun _ => .bind (.onFile isOpen_clear) fun _ =>
      .bind (.modify fun _ => rfl) fun _ => .get_bind fun o =>
      .bind (.onFile fun s => isOpen_seekp s _ _) fun _ =>
      .bind (.onFile fun s => isOpen_write s _) fun _ => .onFile fun s => isOpen_write s _

lemma itemNumber_staysOpen : StaysOpen (itemNumber L P) := by
  cases L with
  | leading => exact .bind (leading_readHeader_staysOpen P) fun _ => .get_bind fun _ => .pure _
  | trailing => exact .bind (trailing_readHeader_staysOpen P) fun _ => .get_bind fun _ => .pure _

lemma nextItem_staysOpen (buf : Option ℕ) : StaysOpen (nextItem buf) := by
  unfold nextItem
  apply StaysOpen.get_bind
  intro o
  apply StaysOpen.ite (.pure _)
  apply StaysOpen.bind (.fromFile fun s => isOpen_read s _)
  intro lenWord
  apply StaysOpen.get_bind
  intro o
  have hback (r : ItemResult) : StaysOpen (do
      onFile (·.seekp (-8) .cur)
      return r) :=
    .bind (.onFile fun s => isOpen_seekp s _ _) fun _ => .pure _
  apply StaysOpen.ite (.pure _)
  cases buf with
  | none => exact .ite (.bind (.throw _) fun _ => hback _) (hback _)
  | some inSize =>
    have hread : StaysOpen (do
        if inSize < LittleEndian.decode lenWord then
          onFile (·.seekp (-8) .cur)
          return ItemResult.smallBuf (LittleEndian.decode lenWord)
        let data ← fromFile (·.read (LittleEndian.decode lenWord))
        return ItemResult.succ (LittleEndian.decode lenWord) data) :=
      .ite (hback _) (.bind (.fromFile fun s => isOpen_read s _) fun _ => .pure _)
    exact .ite (.bind (.throw _) fun _ => hread) hread

end Open

section Rest

/-- An object whose file is closed has no table and claims no valid header. -/
def Rested (o : FileObject) : Prop :=
  o.mFile.isOpen = false →
    o.mIsHeaderValid = false ∧ o.mIsBlockInfoValid = false ∧ o.mBlockInfos = []

lemma Rested.of_open {o : FileObject} (h : o.mFile.isOpen = true) : Rested o := by
  intro hc
  rw [h] at hc
  cases hc

variable {L P}

lemma step_of_ok {o o' : FileObject} {c : Call} {r : Reply} (h : perform L P c o = .ok r o') :
    step L P o c = o' := by
  rw [step, reply, h]

lemma step_of_error {o o' : FileObject} {c : Call} {f : Failure}
    (h : perform L P c o = .error f o') : step L P o c = o' := by
  rw [step, reply, h]

lemma step_staysOpen {o : FileObject} {c : Call} (hm : StaysOpen (perform L P c))
    (h : o.mFile.isOpen = true) : (step L P o c).mFile.isOpen = true := by
  have hpost := hm o h
  unfold step reply
  cases hc : perform L P c o with
  | ok r o' =>
    rw [hc] at hpost
    exact hpost
  | error f o' =>
    rw [hc] at hpost
    exact hpost

lemma openForRead_of_closed (content : Bytes) {o : FileObject} (h : o.mFile.isOpen = false) :
    openForRead L P (some content) o = resetReadItem L P { o with mFile := .openIn content } := by
  cases L with
  | leading => simp [openForRead, resetReadItem, Leading.openForRead, h]
  | trailing => simp [openForRead, resetReadItem, BlockFile.openForRead, h]

lemma openForRead_of_open (disk : Option Bytes) {o : FileObject} (h : o.mFile.isOpen = true) :
    openForRead L P disk o = .error .alreadyOpen o := by
  cases L with
  | leading => simp [openForRead, Leading.openForRead, h]; rfl
  | trailing => simp [openForRead, BlockFile.openForRead, h]; rfl

lemma openForRead_missing {o : FileObject} (h : o.mFile.isOpen = false) :
    openForRead L P none o = .error .fileOpenFailure o := by
  cases L with
  | leading => simp [openForRead, Leading.openForRead, h]; rfl
  | trailing => simp [openForRead, BlockFile.openForRead, h]; rfl

/-- A file that is there is left open, also when its header is refused. -/
lemma openForRead_opens (content : Bytes) {o : FileObject} (h : o.mFile.isOpen = false) :
    (step L P o (.openForRead (some content))).mFile.isOpen = true := by
  have hpost := resetReadItem_staysOpen L P { o with mFile := .openIn content } rfl
  rw [← openForRead_of_closed content h] at hpost
  cases hrun : openForRead L P (some content) o with
  | ok u o' =>
    rw [hrun] at hpost
    rw [step_of_ok (bind_ok hrun)]
    exact hpost
  | error f o' =>
    rw [hrun] at hpost
    rw [step_of_error (bind_error hrun)]
    exact hpost

lemma openForRead_rested {o : FileObject} (hrest : Rested o) (disk : Option Bytes) :
    Rested (step L P o (.openForRead disk)) := by
  cases h : o.mFile.isOpen with
  | true =>
    rw [step_of_error (bind_error (openForRead_of_open disk h))]
    exact hrest
  | false =>
    cases disk with
    | none =>
      rw [step_of_error (bind_error (openForRead_missing h))]
      exact hrest
    | some content => exact .of_open (openForRead_opens content h)

lemma openForWrite_of_closed {o : FileObject} (h : o.mFile.isOpen = false) :
    openForWrite o = .ok () { o with mFile := openOut } := by
  simp [openForWrite, h]

lemma openForWrite_of_open {o : FileObject} (h : o.mFile.isOpen = true) :
    openForWrite o = .error .alreadyOpen o := by
  simp [openForWrite, h]
  rfl

lemma openForWrite_rested {o : FileObject} (hrest : Rested o) :
    Rested (step L P o .openForWrite) := by
  cases h : o.mFile.isOpen with
  | true =>
    rw [step_of_error (bind_error (openForWrite_of_open h))]
    exact hrest
  | false =>
    rw [step_of_ok (bind_ok (openForWrite_of_closed h))]
    exact .of_open rfl

lemma close_rested {o : FileObject} (hopen : o.mFile.isOpen = true) :
    Rested (step L P o .close) := by
  cases L with
  | leading => exact fun _ => ⟨rfl, rfl, rfl⟩
  | trailing =>
    cases hlast : o.mBlockInfos.getLast? with
    | none =>
      have hclose : close .trailing o = .error .undefined o := by
        simp [close, BlockFile.close, hlast]
        rfl
      rw [step_of_error (bind_error hclose)]
      exact .of_open hopen
    | some back =>
      have hclose : ∃ s, close .trailing o = .ok () ⟨s, o.mHeader, false, false, []⟩ := by
        simp [close, BlockFile.close, hlast]
      obtain ⟨s, hclose⟩ := hclose
      rw [step_of_ok (bind_ok hclose)]
      exact fun _ => ⟨rfl, rfl, rfl⟩

theorem step_rested {o : FileObject} {c : Call} (hrest : Rested o) (hc : InSession o c) :
    Rested (step L P o c) := by
  cases c with
  | openForRead disk => exact openForRead_rested hrest disk
  | openForWrite => exact openForWrite_rested hrest
  | appendItem data =>
    exact .of_open (step_staysOpen (.bind (appendItem_staysOpen L P data) fun _ => .pure _) hc.1)
  | nextItem buf =>
    exact .of_open (step_staysOpen (.bind (nextItem_staysOpen buf) fun _ => .pure _) hc.1)
  | itemNumber =>
    exact .of_open (step_staysOpen (.bind (itemNumber_staysOpen L P) fun _ => .pure _) hc)
  | close => exact close_rested hc

theorem history_rested {history : List Call}
    (h : Runs.Along (step L P) InSession (newObject P) history) :
    Rested (Runs.run (step L P) (newObject P) history) :=
  Runs.run_invariant (fun _ _ hrest hc => step_rested hrest hc) (fun _ => ⟨rfl, rfl, rfl⟩) h

end Rest

section Anew

/-- A header of full size, with the magic number, at the place where the layout has it. -/
def WellFormed (disk : Bytes) : Prop :=
  P.headerSize ≤ disk.length ∧
    match L with
    | .leading => (Header.parse (disk.take P.headerSize)).magicNumber = P.magicNumber
    | .trailing => (Header.parse (disk.drop (disk.length - P.headerSize))).magicNumber =
        P.magicNumber

/-- The calls that begin a session. -/
def Begins : Call → Prop
  | .openForWrite => True
  | .openForRead (some disk) => WellFormed L P disk
  | _ => False

lemma leading_readHeader_anew (disk : Bytes) (h : Header) (b : Bool) (blocks : List BlockInfo)
    (hlen : P.headerSize ≤ disk.length) :
    Leading.readHeader P ⟨readAt disk 0, h, false, b, blocks⟩ =
      Leading.readHeader P ⟨readAt disk 0, (newObject P).mHeader, false, b, blocks⟩ := by
  have hfull : (disk.take P.headerSize).length = P.headerSize := by
    rw [List.length_take, Nat.min_eq_left hlen]
  have hbeg : (readAt disk 0).seekg 0 .beg = readAt disk 0 := seekg_readAt disk 0 0
  have hread := read_readAt disk 0 P.headerSize (by omega)
  rw [List.drop_zero] at hread
  have hover (h : Header) := Leading.overlay_full P h (disk.take P.headerSize) hfull
  simp [Leading.readHeader, tellg_readAt, hbeg, hread, hover]

lemma trailing_readHeader_anew (disk : Bytes) (h : Header) (b : Bool) (blocks : List BlockInfo)
    (hlen : P.headerSize ≤ disk.length) :
    BlockFile.readHeader P ⟨readAt disk 0, h, false, b, blocks⟩ =
      BlockFile.readHeader P ⟨readAt disk 0, (newObject P).mHeader, false, b, blocks⟩ := by
  have hne : disk ≠ [] := by
    rintro rfl
    simp [Params.headerSize] at hlen
  have hend : (readAt disk 0).seekg 0 .fin = readAt disk disk.length := by
    simpa using seekg_readAt_end disk 0 0 (Nat.zero_le _)
  have hhead := seekg_readAt_end disk disk.length P.headerSize hlen
  have hread := read_readAt disk (disk.length - P.headerSize) P.headerSize (by omega)
  have hfull : ((disk.drop (disk.length - P.headerSize)).take P.headerSize).length =
      P.headerSize := by
    rw [List.length_take, List.length_drop]
    omega
  simp [BlockFile.readHeader, tellg_readAt, hend, hne, hhead, hread, hfull]

lemma resetReadItem_anew (disk : Bytes) (h : Header) (hlen : P.headerSize ≤ disk.length) :
    resetReadItem L P ⟨openIn disk, h, false, false, []⟩ =
      resetReadItem L P ⟨openIn disk, (newObject P).mHeader, false, false, []⟩ := by
  cases L with
  | leading =>
    change (Leading.readHeader P >>= _) (⟨readAt disk 0, h, false, false, []⟩ : FileObject) =
      (Leading.readHeader P >>= _) ⟨readAt disk 0, (newObject P).mHeader, false, false, []⟩
    exact bind_same (leading_readHeader_anew P disk h false [] hlen)
  | trailing =>
    change (BlockFile.readHeader P >>= _) (⟨readAt disk 0, h, false, false, []⟩ : FileObject) =
      (BlockFile.readHeader P >>= _) ⟨readAt disk 0, (newObject P).mHeader, false, false, []⟩
    exact bind_same (trailing_readHeader_anew P disk h false [] hlen)

variable {L P}

/-- The first call of a session on a closed object does what it does on a new one. -/
theorem reply_anew {o : FileObject} {c : Call} (hrest : Rested o) (hbegin : Begins L P c)
    (hclosed : o.mFile.isOpen = false)
    (hheader : c = .openForWrite → o.mHeader = (newObject P).mHeader) :
    reply L P o c = reply L P (newObject P) c := by
  obtain ⟨hv, hb, hi⟩ := hrest hclosed
  obtain ⟨file, header, valid, infoValid, blocks⟩ := o
  cases hv
  cases hb
  cases hi
  have hsame : perform L P c ⟨file, header, false, false, []⟩ = perform L P c (newObject P) := by
    cases c with
    | openForWrite =>
      cases hheader rfl
      apply bind_same
      rw [openForWrite_of_closed hclosed, openForWrite_of_closed rfl]
      rfl
    | openForRead disk =>
      cases disk with
      | none => cases hbegin
      | some disk =>
        apply bind_same
        rw [openForRead_of_closed disk hclosed, openForRead_of_closed disk rfl]
        exact resetReadItem_anew L P disk header hbegin.1
    | appendItem data => cases hbegin
    | nextItem buf => cases hbegin
    | itemNumber => cases hbegin
    | close => cases hbegin
  rw [reply, reply, hsame]

/-- After any history, a session that starts on a closed object behaves as on a new one: a read
session always, a write session while no header has been cached. -/
theorem sessions_are_independent (history : List Call)
    (hhistory : Runs.Along (step L P) InSession (newObject P) history)
    (first : Call) (hbegin : Begins L P first)
    (hclosed : (Runs.run (step L P) (newObject P) history).mFile.isOpen = false)
    (hheader : first = .openForWrite →
      (Runs.run (step L P) (newObject P) history).mHeader = (newObject P).mHeader)
    (calls : List Call) :
    behaviour L P (Runs.run (step L P) (newObject P) history) (first :: calls) =
      behaviour L P (newObject P) (first :: calls) := by
  have hsame := reply_anew (history_rested hhistory) hbegin hclosed hheader
  rw [behaviour, behaviour, step, step, hsame]

end Anew

/-- A write session with one item. -/
def oneItem : List Call := [.openForWrite, .appendItem [1], .close]

/-- The file of the write session, read on the object that wrote it. -/
theorem read_session_after_write :
    behaviour .trailing gtestParams (Runs.run (step .trailing gtestParams) (newObject gtestParams)
      oneItem) [.openForRead (some (diskOf gtestParams [[1]])), .itemNumber, .nextItem (some 1)] =
    behaviour .trailing gtestParams (newObject gtestParams)
      [.openForRead (some (diskOf gtestParams [[1]])), .itemNumber, .nextItem (some 1)] := by
  have hhistory : Runs.Along (step .trailing gtestParams) InSession (newObject gtestParams)
      oneItem := by decide +kernel
  have hbegin : Begins .trailing gtestParams (.openForRead (some (diskOf gtestParams [[1]]))) :=
    ⟨by decide +kernel, by decide +kernel⟩
  exact sessions_are_independent oneItem hhistory _ hbegin (by decide +kernel)
    (fun h => by cases h) _

/-- The second of two write sessions starts from the header that the first one left. -/
theorem second_write_session_differs :
    Runs.Along (step .trailing gtestParams) InSession (newObject gtestParams) oneItem ∧
      behaviour .trailing gtestParams (Runs.run (step .trailing gtestParams)
        (newObject gtestParams) oneItem) oneItem ≠
      behaviour .trailing gtestParams (newObject gtestParams) oneItem ∧
    Runs.Along (step .leading gtestParams) InSession (newObject gtestParams) oneItem ∧
      behaviour .leading gtestParams (Runs.run (step .leading gtestParams)
        (newObject gtestParams) oneItem) oneItem ≠
      behaviour .leading gtestParams (newObject gtestParams) oneItem := by
  refine ⟨?_, ?_, ?_, ?_⟩
  · decide +kernel
  · decide +kernel
  · decide +kernel
  · decide +kernel

end PrivacyComputing.BlockFile.Sessions
