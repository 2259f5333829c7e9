import PrivacyComputing.BlockFileSessions

/-! Reading files of arbitrary content, of either layout: which calls of `next_item` hand out
bytes of the file, and how many of them can. -/
namespace PrivacyComputing.BlockFile.Sessions
open LittleEndian Calls FileStream

/-- A stream on a file that is read. -/
structure Reads (content : Bytes) (s : FileStream) : Prop where
  content_eq : s.content = content
  canRead : s.canRead = true
  not_bad : s.badbit = false

section Reads
variable {content : Bytes} {s : FileStream}

lemma reads_openIn (content : Bytes) : Reads content (openIn content) := ⟨rfl, rfl, rfl⟩

lemma Reads.clear (h : Reads content s) : Reads content s.clear := ⟨h.1, h.2, rfl⟩

lemma Reads.sentry (h : Reads content s) : Reads content s.sentry := by
  unfold FileStream.sentry
  split_ifs
  · exact h
  · exact ⟨h.1, h.2, h.3⟩

lemma Reads.tellg (h : Reads content s) : Reads content s.tellg.2 := by
  unfold FileStream.tellg
  split_ifs
  · exact h.sentry
  · exact h.sentry

lemma Reads.seek (h : Reads content s) (off : ℤ) (dir : SeekDir) :
    Reads content (s.seek off dir) := by
  unfold FileStream.seek
  split_ifs
  · exact h
  · exact ⟨h.1, h.2, h.3⟩
  · exact ⟨h.1, h.2, h.3⟩

lemma Reads.seekg (h : Reads content s) (off : ℤ) (dir : SeekDir) :
    Reads content (s.seekg off dir) := by
  have hclear : Reads content { s with eofbit := false } := ⟨h.1, h.2, h.3⟩
  exact hclear.sentry.seek off dir

lemma Reads.read (h : Reads content s) (n : ℕ) : Reads content (s.read n).2 := by
  unfold FileStream.read
  split_ifs
  · exact ⟨h.1, h.2, h.3⟩
  · exact ⟨h.1, h.2, h.3⟩
  · exact ⟨h.1, h.2, h.3⟩

end Reads

/-- A call that keeps the file that is read; `Q` holds before it and `R` after it. -/
def OnReader {α : Type} (content : Bytes) (Q R : FileObject → Prop) (m : FileM α) : Prop :=
  Contract (fun o => Reads content o.mFile ∧ Q o) m (fun _ o => Reads content o.mFile ∧ R o)
    (fun _ _ => True)

/-- A property of the object that does not speak of the stream. -/
def OffStream (Q : FileObject → Prop) : Prop := ∀ o s, Q o → Q { o with mFile := s }

section OnReader
variable {α β : Type} {content : Bytes} {Q R T : FileObject → Prop}

lemma OnReader.bind {m : FileM α} {k : α → FileM β} (h : OnReader content Q R m)
    (hk : ∀ a, OnReader content R T (k a)) : OnReader content Q T (m >>= k) := Contract.bind h hk

lemma OnReader.get_bind {k : FileObject → FileM α} (hk : ∀ o, OnReader content Q R (k o)) :
    OnReader content Q R (get >>= k) := fun o ho => hk o o ho

lemma OnReader.onFile (hQ : OffStream Q) {f : FileStream → FileStream}
    (hf : ∀ s, Reads content s → Reads content (f s)) : OnReader content Q Q (onFile f) :=
  fun o ho => ⟨hf _ ho.1, hQ o _ ho.2⟩

lemma OnReader.fromFile (hQ : OffStream Q) {f : FileStream → α × FileStream}
    (hf : ∀ s, Reads content s → Reads content (f s).2) : OnReader content Q Q (fromFile f) :=
  fun o ho => ⟨hf _ ho.1, hQ o _ ho.2⟩

lemma OnReader.modify {f : FileObject → FileObject} (hfile : ∀ o, (f o).mFile = o.mFile)
    (hR : ∀ o, Q o → R (f o)) : OnReader content Q R (modify f) :=
  fun o ho => ⟨(hfile o).symm ▸ ho.1, hR o ho.2⟩

lemma OnReader.ite {c : Prop} [Decidable c] {m m' : FileM α} (h : OnReader content Q R m)
    (h' : OnReader content Q R m') : OnReader content Q R (if c then m else m') := by
  split_ifs
  · exact h
  · exact h'

lemma OnReader.throw (f : Failure) : OnReader content Q R (throw f : FileM α) :=
  fun _ _ => trivial

lemma OnReader.pure (a : α) (h : ∀ o, Q o → R o) : OnReader content Q R (pure a : FileM α) :=
  fun o ho => ⟨ho.1, h o ho.2⟩

lemma OnReader.unless {c : FileObject → Bool} {rest : FileM Unit}
    (hdone : ∀ o, Q o → c o = true → R o) (hrest : OnReader content Q R rest) :
    OnReader content Q R (get >>= fun o => if c o = true then Pure.pure () else rest) := by
  intro o ho
  rw [Calls.get_bind]
  by_cases hc : c o = true
  · rw [if_pos hc]
    exact ⟨ho.1, hdone o ho.2 hc⟩
  · rw [if_neg hc]
    exact hrest o ho

lemma OnReader.weaken {m : FileM α} (h : OnReader content Q R m) (hQ : ∀ o, T o → Q o) :
    OnReader content T R m := fun o ho => h o ⟨ho.1, hQ o ho.2⟩

end OnReader

def HeaderValid (o : FileObject) : Prop := o.mIsHeaderValid = true

def TableValid (o : FileObject) : Prop := o.mIsHeaderValid = true ∧ o.mIsBlockInfoValid = true

def Fresh (_ : FileObject) : Prop := True

section Opening
variable {content : Bytes} (P : Params)

lemma fresh_offStream : OffStream Fresh := fun _ _ _ => trivial
lemma headerValid_offStream : OffStream HeaderValid := fun _ _ h => h
lemma tableValid_offStream : OffStream TableValid := fun _ _ h => h

lemma seekg_onReader {Q : FileObject → Prop} (hQ : OffStream Q) (off : ℤ) (dir : SeekDir) :
    OnReader content Q Q (onFile (·.seekg off dir)) :=
  .onFile hQ fun _ h => h.seekg off dir

lemma setHeaderValid_onReader : OnReader content Fresh HeaderValid
    (modify fun o => { o with mIsHeaderValid := true }) :=
  .modify (fun _ => rfl) fun _ _ => rfl

lemma trailing_readHeader_onReader :
    OnReader content Fresh HeaderValid (BlockFile.readHeader P) := by
  unfold BlockFile.readHeader
  refine .unless (fun _ _ hv => hv) ?_
  refine .bind (.fromFile fresh_offStream fun _ h => h.tellg) fun prev => ?_
  refine .bind (seekg_onReader fresh_offStream _ _) fun _ => ?_
  refine .bind (.fromFile fresh_offStream fun _ h => h.tellg) fun len => ?_
  have hend : OnReader content Fresh HeaderValid (do
      modify fun o => { o with mIsHeaderValid := true }
      onFile (·.seekg prev .beg)) :=
    .bind setHeaderValid_onReader fun _ => seekg_onReader headerValid_offStream _ _
  refine .ite (.bind setHeaderValid_onReader fun _ =>
    .bind (seekg_onReader headerValid_offStream _ _) fun _ => .pure _ fun _ h => h) ?_
  refine .bind (seekg_onReader fresh_offStream _ _) fun _ => ?_
  refine .bind (.fromFile fresh_offStream fun _ h => h.read _) fun data => ?_
  have hcheck : OnReader content Fresh HeaderValid (do
      let o ← get
      if o.mHeader.magicNumber ≠ P.magicNumber then throw .invalidBlockfile
      modify fun o => { o with mIsHeaderValid := true }
      onFile (·.seekg prev .beg)) :=
    .get_bind fun _ => .ite (.bind (.throw (R := Fresh) _) fun _ => hend) hend
  exact .ite (.bind (.modify (R := Fresh) (fun _ => rfl) fun _ _ => trivial) fun _ => hcheck)
    hcheck

lemma leading_readHeader_onReader :
    OnReader content Fresh HeaderValid (Leading.readHeader P) := by
  unfold Leading.readHeader
  refine .unless (fun _ _ hv => hv) ?_
  refine .bind (.fromFile fresh_offStream fun _ h => h.tellg) fun prev => ?_
  refine .bind (seekg_onReader fresh_offStream _ _) fun _ => ?_
  refine .bind (.fromFile fresh_offStream fun _ h => h.read _) fun data => ?_
  refine .bind (.modify (R := Fresh) (fun _ => rfl) fun _ _ => trivial) fun _ => ?_
  have hend : OnReader content Fresh HeaderValid (do
      modify fun o => { o with mIsHeaderValid := true }
      onFile (·.seekg prev .beg)) :=
    .bind setHeaderValid_onReader fun _ => seekg_onReader headerValid_offStream _ _
  exact .get_bind fun _ => .ite (.bind (.throw (R := Fresh) _) fun _ => hend) hend

lemma readBlocks_onReader (n : ℕ) : OnReader content HeaderValid HeaderValid (readBlocks n) := by
  induction n with
  | zero => exact .pure _ fun _ h => h
  | succ n ih =>
    exact .bind (.fromFile headerValid_offStream fun _ h => h.read _) fun _ =>
      .bind (.modify (fun _ => rfl) fun _ h => h) fun _ => ih

lemma setTableValid_onReader : OnReader content HeaderValid TableValid
    (modify fun o => { o with mIsBlockInfoValid := true }) :=
  .modify (fun _ => rfl) fun _ h => ⟨h, rfl⟩

lemma trailing_readAllBlockInfo_onReader :
    OnReader content Fresh TableValid (BlockFile.readAllBlockInfo P) := by
  unfold BlockFile.readAllBlockInfo
  refine .bind (trailing_readHeader_onReader P) fun _ => ?_
  refine .unless (fun _ hh hv => ⟨hh, hv⟩) ?_
  refine .bind (.fromFile headerValid_offStream fun _ h => h.tellg) fun prev => ?_
  exact .get_bind fun o => .bind (seekg_onReader headerValid_offStream _ _) fun _ =>
    .bind (readBlocks_onReader _) fun _ => .bind setTableValid_onReader fun _ =>
    seekg_onReader tableValid_offStream _ _

lemma leading_readAllBlockInfo_onReader :
    OnReader content Fresh TableValid (Leading.readAllBlockInfo P) := by
  unfold Leading.readAllBlockInfo
  refine .bind (leading_readHeader_onReader P) fun _ => ?_
  refine .unless (fun _ hh hv => ⟨hh, hv⟩) ?_
  exact .bind (seekg_onReader headerValid_offStream _ _) fun _ => .get_bind fun o =>
    .bind (readBlocks_onReader _) fun _ => setTableValid_onReader

lemma resetReadItem_onReader (L : Layout) :
    OnReader content Fresh TableValid (resetReadItem L P) := by
  cases L with
  | leading =>
    exact .bind (.onFile fresh_offStream fun _ h => h.clear) fun _ =>
      .bind (leading_readHeader_onReader P) fun _ =>
      .bind ((leading_readAllBlockInfo_onReader P).weaken fun _ _ => trivial) fun _ =>
      seekg_onReader tableValid_offStream _ _
  | trailing =>
    exact .bind (.onFile fresh_offStream fun _ h => h.clear) fun _ =>
      .bind (trailing_readHeader_onReader P) fun _ =>
      .bind ((trailing_readAllBlockInfo_onReader P).weaken fun _ _ => trivial) fun _ =>
      seekg_onReader tableValid_offStream _ _

/-- An object on which a file is read: the stream is on it, header and table have been read. -/
structure Reading (content : Bytes) (o : FileObject) : Prop where
  reads : Reads content o.mFile
  valid : TableValid o

lemma reading_of_reset {L : Layout} {o o' : FileObject} (h : Reads content o.mFile)
    (hrun : resetReadItem L P o = .ok () o') : Reading content o' := by
  obtain ⟨hreads, hvalid⟩ := (resetReadItem_onReader P L).ok ⟨h, trivial⟩ hrun
  exact ⟨hreads, hvalid⟩

/-- Whatever the file holds, an `open_for_read` that succeeds leaves a reader of it. -/
theorem openForRead_reading {L : Layout} {o o' : FileObject} (hclosed : o.mFile.isOpen = false)
    (hopen : openForRead L P (some content) o = .ok () o') : Reading content o' := by
  cases L with
  | leading =>
    have hrun : Leading.resetReadItem P { o with mFile := openIn content } = .ok () o' := by
      simpa [openForRead, Leading.openForRead, hclosed] using hopen
    exact reading_of_reset P (L := .leading) (reads_openIn content) hrun
  | trailing =>
    have hrun : BlockFile.resetReadItem P { o with mFile := openIn content } = .ok () o' := by
      simpa [openForRead, BlockFile.openForRead, hclosed] using hopen
    exact reading_of_reset P (L := .trailing) (reads_openIn content) hrun

end Opening

/-- The stream with its position moved. -/
def moved (s : FileStream) (p : ℕ) : FileStream := { s with pos := p }

/-- The stream after a read of `n` bytes that delivered `len` of them. -/
def afterRead (s : FileStream) (len n : ℕ) : FileStream :=
  { s with pos := s.pos + len, eofbit := len < n, failbit := len < n }

/-- The length word at the position of the stream. -/
def lengthWord (o : FileObject) : ℕ := decode ((o.mFile.content.drop o.mFile.pos).take 8)

/-- The bytes that follow the length word, as far as it announces them. -/
def payload (o : FileObject) : Bytes :=
  (o.mFile.content.drop (o.mFile.pos + 8)).take (lengthWord o)

/-- The object after the announced bytes, or what is left of them, have been read. -/
def taken (o : FileObject) : FileObject :=
  { o with
    mFile := afterRead (moved o.mFile (o.mFile.pos + 8)) (payload o).length (lengthWord o) }

section Step
variable {content : Bytes} {s : FileStream} {o : FileObject}

@[simp] lemma moved_pos (p : ℕ) : (moved s p).pos = p := rfl
@[simp] lemma moved_eofbit (p : ℕ) : (moved s p).eofbit = s.eofbit := rfl
@[simp] lemma moved_good (p : ℕ) : (moved s p).good = s.good := rfl
@[simp] lemma moved_moved (p q : ℕ) : moved (moved s p) q = moved s q := rfl
@[simp] lemma moved_self : moved s s.pos = s := rfl

lemma Reads.moved (h : Reads content s) (p : ℕ) : Reads content (moved s p) := ⟨h.1, h.2, h.3⟩

lemma Reads.afterRead (h : Reads content s) (len n : ℕ) : Reads content (afterRead s len n) :=
  ⟨h.1, h.2, h.3⟩

lemma read_of_reads (h : Reads content s) (hgood : s.good = true) (n : ℕ) :
    s.read n = ((content.drop s.pos).take n,
      afterRead s ((content.drop s.pos).take n).length n) := by
  obtain ⟨rfl, hcanRead, -⟩ := h
  rw [FileStream.read, if_pos hgood, if_pos hcanRead]
  rfl

/-- A read that the file has bytes for. -/
lemma read_inside (h : Reads content s) (hgood : s.good = true) {n : ℕ}
    (hn : s.pos + n ≤ content.length) :
    s.read n = ((content.drop s.pos).take n, moved s (s.pos + n)) := by
  obtain ⟨he, hf, -⟩ := good_iff.1 hgood
  have hlen : ((content.drop s.pos).take n).length = n := by
    rw [List.length_take, List.length_drop]
    omega
  rw [read_of_reads h hgood, hlen]
  simp [afterRead, moved, he, hf]

/-- At the end of the file nothing is read. -/
lemma nextItem_ended (buf : Option ℕ) (he : o.mFile.eofbit = true) :
    nextItem buf o = .ok .eof o := by
  simp [nextItem, he]

/-- On a stream that has failed before its end, the length is never written. -/
lemma nextItem_failed (buf : Option ℕ) (he : o.mFile.eofbit = false)
    (hf : o.mFile.failbit = true) :
    nextItem buf o = .error .undefined { o with mFile := { o.mFile with failbit := true } } := by
  have hread : o.mFile.read 8 = ([], { o.mFile with failbit := true }) := by
    simp [FileStream.read, good, fail, hf]
  simp [nextItem, he, hread]
  rfl

/-- The file ends within the length word. -/
lemma nextItem_short (buf : Option ℕ) (h : Reads content o.mFile) (hgood : o.mFile.good = true)
    (hshort : content.length < o.mFile.pos + 8) :
    ∃ s, nextItem buf o = .ok .eof { o with mFile := s } ∧ s.eofbit = true ∧
      Reads content s := by
  obtain ⟨he, -, -⟩ := good_iff.1 hgood
  have hlen : ((content.drop o.mFile.pos).take 8).length < 8 := by
    rw [List.length_take, List.length_drop]
    omega
  have hread : (o.mFile.read 8).2.eofbit = true := by
    rw [read_of_reads h hgood, afterRead]
    exact decide_eq_true hlen
  refine ⟨(o.mFile.read 8).2, ?_, hread, h.read 8⟩
  simp [nextItem, he, hread]

lemma read_word (h : Reads content o.mFile) (hgood : o.mFile.good = true)
    (hword : o.mFile.pos + 8 ≤ content.length) :
    ∃ word, o.mFile.read 8 = (word, moved o.mFile (o.mFile.pos + 8)) ∧ word.length = 8 ∧
      decode word = lengthWord o := by
  refine ⟨(content.drop o.mFile.pos).take 8, read_inside h hgood hword, ?_, ?_⟩
  · rw [List.length_take, List.length_drop]
    omega
  · rw [lengthWord, h.content_eq]

lemma seek_back (hgood : s.good = true) : (moved s (s.pos + 8)).seekp (-8) .cur = s := by
  have hback := seekp_of_good (s := moved s (s.pos + 8)) hgood (-8) .cur (n := s.pos)
    (by simp only [target, moved_pos]; omega)
  exact hback

lemma nextItem_none (h : Reads content o.mFile) (hgood : o.mFile.good = true)
    (hword : o.mFile.pos + 8 ≤ content.length) : nextItem none o = .ok .invalidBuf o := by
  obtain ⟨he, -, -⟩ := good_iff.1 hgood
  obtain ⟨word, hread, hlen, -⟩ := read_word h hgood hword
  have hnot : ¬ word.length < 8 := by omega
  simp [nextItem, he, hread, hnot, seek_back hgood, -bind_pure_comp]

lemma nextItem_small (h : Reads content o.mFile) (hgood : o.mFile.good = true)
    (hword : o.mFile.pos + 8 ≤ content.length) {inSize : ℕ} (hsmall : inSize < lengthWord o) :
    nextItem (some inSize) o = .ok (.smallBuf (lengthWord o)) o := by
  obtain ⟨he, -, -⟩ := good_iff.1 hgood
  obtain ⟨word, hread, hlen, hdecode⟩ := read_word h hgood hword
  have hnot : ¬ word.length < 8 := by omega
  simp [nextItem, he, hread, hnot, hdecode, hsmall, seek_back hgood, -bind_pure_comp]

/-- Whatever is left of the announced bytes is handed out as an item of the announced size. -/
lemma nextItem_taken (h : Reads content o.mFile) (hgood : o.mFile.good = true)
    (hword : o.mFile.pos + 8 ≤ content.length) {inSize : ℕ} (hfit : lengthWord o ≤ inSize) :
    nextItem (some inSize) o = .ok (.succ (lengthWord o) (payload o)) (taken o) := by
  obtain ⟨he, -, -⟩ := good_iff.1 hgood
  obtain ⟨word, hread, hlen, hdecode⟩ := read_word h hgood hword
  have hnot : ¬ word.length < 8 := by omega
  have hbig : ¬ inSize < lengthWord o := by omega
  have hpayload : payload o = (content.drop (o.mFile.pos + 8)).take (lengthWord o) := by
    rw [payload, h.content_eq]
  have hdata := read_of_reads (h.moved (o.mFile.pos + 8)) hgood (lengthWord o)
  rw [moved_pos, ← hpayload] at hdata
  simp [nextItem, he, hread, hnot, hdecode, hbig, hdata, taken, -bind_pure_comp]

end Step

/-- What is done with a reader. -/
inductive Access
  | next (buf : Option ℕ)
  | reset
  deriving DecidableEq, Repr

/-- An item is as long as announced, and it stands in the file behind a whole length word. -/
def Filled (o : FileObject) : ItemResult → Prop
  | .succ outSize data => data.length = outSize ∧
      ∃ word rest, word.length = 8 ∧ decode word = outSize ∧
        o.mFile.content.drop o.mFile.pos = word ++ data ++ rest
  | _ => True

/-- A call of `next_item` returns, and what it hands out is in the file. -/
def Sound (o : FileObject) : Access → Prop
  | .next buf => ∃ r o', nextItem buf o = .ok r o' ∧ Filled o r
  | .reset => True

/-- The stream has ended, or it has not failed and the file holds what a length word announces
that the buffer has room for. -/
def Intact (o : FileObject) : Access → Prop
  | .next buf => o.mFile.eofbit = true ∨ o.mFile.failbit = false ∧
      ∀ inSize, buf = some inSize → o.mFile.pos + 8 ≤ o.mFile.content.length →
        lengthWord o ≤ inSize → o.mFile.pos + 8 + lengthWord o ≤ o.mFile.content.length
  | .reset => True

section Runs
variable (L : Layout) (P : Params)

/-- A call that throws leaves the object as it is then. -/
def access (o : FileObject) : Access → FileObject
  | .next buf =>
    match nextItem buf o with
    | .ok _ o' => o'
    | .error _ o' => o'
  | .reset =>
    match resetReadItem L P o with
    | .ok _ o' => o'
    | .error _ o' => o'

/-- `Q` holds before every access of a run. -/
def AtEvery (Q : FileObject → Access → Prop) : FileObject → List Access → Prop
  | _, [] => True
  | o, a :: accesses => Q o a ∧ AtEvery Q (access L P o a) accesses

/-- The results of calls of `next_item` one after the other, with no result for a call that
has none. -/
def results : FileObject → List (Option ℕ) → List (Option ItemResult)
  | _, [] => []
  | o, buf :: bufs =>
    match nextItem buf o with
    | .ok r o' => some r :: results o' bufs
    | .error _ o' => none :: results o' bufs

variable {L P} {content : Bytes} {o : FileObject}

lemma Reading.moved (h : Reading content o) {s : FileStream} (hs : Reads content s) :
    Reading content { o with mFile := s } := ⟨hs, h.valid⟩

/-- A reset of a reader does not fail, whatever had become of the stream. -/
lemma resetReadItem_reading (h : Reading content o) :
    ∃ o', resetReadItem L P o = .ok () o' ∧ Reading content o' := by
  obtain ⟨hheader, htable⟩ := h.valid
  cases L with
  | leading =>
    refine ⟨{ o with mFile := o.mFile.clear.seekg (Leading.blockStartOffset P) .beg }, ?_,
      h.moved (h.reads.clear.seekg _ _)⟩
    change Leading.resetReadItem P o = _
    rw [Leading.resetReadItem, onFile_bind]
    simp [Leading.readHeader, Leading.readAllBlockInfo, hheader, htable]
  | trailing =>
    refine ⟨{ o with mFile := o.mFile.clear.seekg 0 .beg }, ?_, h.moved (h.reads.clear.seekg _ _)⟩
    change BlockFile.resetReadItem P o = _
    rw [BlockFile.resetReadItem, onFile_bind]
    simp [BlockFile.readHeader, BlockFile.readAllBlockInfo, hheader, htable]

/-- What a call of `next_item` does on a stream that is good. -/
lemma nextItem_good (h : Reads content o.mFile) (hgood : o.mFile.good = true) (buf : Option ℕ) :
    (content.length < o.mFile.pos + 8 ∧
      ∃ s, nextItem buf o = .ok .eof { o with mFile := s } ∧ s.eofbit = true ∧ Reads content s) ∨
    (o.mFile.pos + 8 ≤ content.length ∧
      (nextItem buf o = .ok .invalidBuf o ∧ buf = none ∨
        ∃ inSize, buf = some inSize ∧
          (nextItem buf o = .ok (.smallBuf (lengthWord o)) o ∧ inSize < lengthWord o ∨
          nextItem buf o = .ok (.succ (lengthWord o) (payload o)) (taken o) ∧
            lengthWord o ≤ inSize))) := by
  rcases Nat.lt_or_ge content.length (o.mFile.pos + 8) with hshort | hword
  · exact .inl ⟨hshort, nextItem_short buf h hgood hshort⟩
  · refine .inr ⟨hword, ?_⟩
    cases buf with
    | none => exact .inl ⟨nextItem_none h hgood hword, rfl⟩
    | some inSize =>
      rcases Nat.lt_or_ge inSize (lengthWord o) with hsmall | hfit
      · exact .inr ⟨inSize, rfl, .inl ⟨nextItem_small h hgood hword hsmall, hsmall⟩⟩
      · exact .inr ⟨inSize, rfl, .inr ⟨nextItem_taken h hgood hword hfit, hfit⟩⟩

lemma taken_reading (h : Reading content o) : Reading content (taken o) :=
  h.moved ((h.reads.moved _).afterRead _ _)

lemma good_of_bits (h : Reads content o.mFile) (he : o.mFile.eofbit = false)
    (hf : o.mFile.failbit = false) : o.mFile.good = true := good_iff.2 ⟨he, hf, h.not_bad⟩

/-- A run goes on with a reader of the same file. -/
theorem access_reading (h : Reading content o) (a : Access) :
    Reading content (access L P o a) := by
  cases a with
  | reset =>
    obtain ⟨o', hreset, ho'⟩ := resetReadItem_reading (L := L) (P := P) h
    simpa [access, hreset] using ho'
  | next buf =>
    by_cases he : o.mFile.eofbit = true
    · simpa [access, nextItem_ended buf he] using h
    · rw [Bool.not_eq_true] at he
      by_cases hf : o.mFile.failbit = true
      · have hfailed : Reads content { o.mFile with failbit := true } :=
          ⟨h.reads.1, h.reads.2, h.reads.3⟩
        simpa [access, nextItem_failed buf he hf] using h.moved hfailed
      · rw [Bool.not_eq_true] at hf
        rcases nextItem_good h.reads (good_of_bits h.reads he hf) buf with
          ⟨-, s, hrun, -, hs⟩ | ⟨-, ⟨hrun, -⟩ | ⟨inSize, -, ⟨hrun, -⟩ | ⟨hrun, -⟩⟩⟩
        · simpa [access, hrun] using h.moved hs
        · simpa [access, hrun] using h
        · simpa [access, hrun] using h
        · simpa [access, hrun] using taken_reading h

/-- The announced bytes are there exactly when the payload that is handed out has their
number. -/
lemma filled_iff (h : Reads content o.mFile) (hword : o.mFile.pos + 8 ≤ content.length) :
    Filled o (.succ (lengthWord o) (payload o)) ↔
      o.mFile.pos + 8 + lengthWord o ≤ content.length := by
  have hlen : (payload o).length = min (lengthWord o) (content.length - (o.mFile.pos + 8)) := by
    rw [payload, List.length_take, List.length_drop, h.content_eq]
  constructor
  · rintro ⟨hfull, -⟩
    omega
  · intro hin
    refine ⟨by omega, (content.drop o.mFile.pos).take 8,
      (content.drop (o.mFile.pos + 8)).drop (lengthWord o), ?_, ?_, ?_⟩
    · rw [List.length_take, List.length_drop]
      omega
    · rw [lengthWord, h.content_eq]
    · rw [payload, h.content_eq, List.append_assoc, List.take_append_drop, ← List.drop_drop,
        List.take_append_drop]

/-- One access: it is sound exactly when the stream is intact. -/
theorem sound_iff_intact (h : Reading content o) (a : Access) : Sound o a ↔ Intact o a := by
  cases a with
  | reset => exact Iff.rfl
  | next buf =>
    by_cases he : o.mFile.eofbit = true
    · exact ⟨fun _ => .inl he, fun _ => ⟨.eof, o, nextItem_ended buf he, trivial⟩⟩
    · rw [Bool.not_eq_true] at he
      by_cases hf : o.mFile.failbit = true
      · have hnot : ¬ Intact o (.next buf) := by
          simp [Intact, he, hf]
        refine ⟨fun ⟨r, o', hrun, _⟩ => ?_, fun hi => absurd hi hnot⟩
        rw [nextItem_failed buf he hf] at hrun
        cases hrun
      · rw [Bool.not_eq_true] at hf
        have hcontent := h.reads.content_eq
        rcases nextItem_good h.reads (good_of_bits h.reads he hf) buf with
          ⟨hshort, s, hrun, -, -⟩ | ⟨hword, ⟨hrun, hbuf⟩ |
            ⟨inSize, hbuf, ⟨hrun, hsmall⟩ | ⟨hrun, hfit⟩⟩⟩
        · refine ⟨fun _ => .inr ⟨hf, fun n _ hin => ?_⟩, fun _ => ⟨_, _, hrun, trivial⟩⟩
          rw [hcontent] at hin
          omega
        · refine ⟨fun _ => .inr ⟨hf, fun n hn => ?_⟩, fun _ => ⟨_, _, hrun, trivial⟩⟩
          rw [hbuf] at hn
          cases hn
        · refine ⟨fun _ => .inr ⟨hf, fun n hn _ hle => ?_⟩, fun _ => ⟨_, _, hrun, trivial⟩⟩
          rw [hbuf] at hn
          cases hn
          omega
        · have hfilled := filled_iff h.reads hword
          constructor
          · rintro ⟨r, o', hrun', hr⟩
            rw [hrun] at hrun'
            cases hrun'
            refine .inr ⟨hf, fun _ _ _ _ => ?_⟩
            rw [hcontent]
            exact hfilled.1 hr
          · intro hi
            rcases hi with hend | ⟨-, hall⟩
            · rw [he] at hend
              cases hend
            · have hin := hall inSize hbuf (by rw [hcontent]; exact hword) hfit
              rw [hcontent] at hin
              exact ⟨_, _, hrun, hfilled.2 hin⟩

/-- A run whose accesses are sound, and one whose accesses all find the stream intact. -/
theorem atEvery_sound_iff (h : Reading content o) (accesses : List Access) :
    AtEvery L P Sound o accesses ↔ AtEvery L P Intact o accesses := by
  induction accesses generalizing o with
  | nil => exact Iff.rfl
  | cons a accesses ih =>
    exact and_congr (sound_iff_intact h a) (ih (access_reading h a))

/-- The object after a run. -/
def after (L : Layout) (P : Params) (o : FileObject) (accesses : List Access) : FileObject :=
  accesses.foldl (access L P) o

lemma after_reading (h : Reading content o) (accesses : List Access) :
    Reading content (after L P o accesses) := by
  induction accesses generalizing o with
  | nil => exact h
  | cons a accesses ih => exact ih (access_reading h a)

def isSucc : Option ItemResult → Bool
  | some (.succ _ _) => true
  | _ => false

/-- The bytes of the file that a good stream has before it. -/
def ahead (o : FileObject) : ℕ :=
  if o.mFile.good then o.mFile.content.length - o.mFile.pos else 0

lemma results_ended (bufs : List (Option ℕ)) (he : o.mFile.eofbit = true) :
    results o bufs = List.replicate bufs.length (some .eof) := by
  induction bufs with
  | nil => rfl
  | cons buf bufs ih => simp [results, nextItem_ended buf he, ih, List.replicate_succ]

lemma results_failed (bufs : List (Option ℕ)) (he : o.mFile.eofbit = false)
    (hf : o.mFile.failbit = true) : results o bufs = List.replicate bufs.length none := by
  induction bufs generalizing o with
  | nil => rfl
  | cons buf bufs ih =>
    rw [results, nextItem_failed buf he hf]
    exact congrArg (none :: ·) (ih he rfl)

lemma ahead_taken (h : Reads content o.mFile) (hgood : o.mFile.good = true)
    (hword : o.mFile.pos + 8 ≤ content.length) : ahead (taken o) + 8 ≤ ahead o := by
  have hbefore : ahead o = content.length - o.mFile.pos := by
    rw [ahead, if_pos hgood, h.content_eq]
  have hafter : ahead (taken o) ≤ content.length - (o.mFile.pos + 8) := by
    unfold ahead
    split_ifs
    · have hcontent : (taken o).mFile.content = content := h.content_eq
      have hpos : (taken o).mFile.pos = o.mFile.pos + 8 + (payload o).length := rfl
      rw [hcontent, hpos]
      omega
    · exact Nat.zero_le _
  omega

/-- Every item takes its length word from the file. -/
theorem countP_succ_le (h : Reading content o) (bufs : List (Option ℕ)) :
    8 * (results o bufs).countP isSucc ≤ ahead o := by
  induction bufs generalizing o with
  | nil => simp [results]
  | cons buf bufs ih =>
    by_cases he : o.mFile.eofbit = true
    · rw [results_ended _ he, List.countP_replicate]
      exact Nat.zero_le _
    · rw [Bool.not_eq_true] at he
      by_cases hf : o.mFile.failbit = true
      · rw [results_failed _ he hf, List.countP_replicate]
        exact Nat.zero_le _
      · rw [Bool.not_eq_true] at hf
        have hgood := good_of_bits h.reads he hf
        rcases nextItem_good h.reads hgood buf with
          ⟨-, s, hrun, hend, -⟩ | ⟨hword, ⟨hrun, -⟩ | ⟨inSize, -, ⟨hrun, -⟩ | ⟨hrun, -⟩⟩⟩
        · simp only [results, hrun]
          rw [results_ended bufs hend, List.countP_cons, List.countP_replicate]
          exact Nat.zero_le _
        · simpa [results, hrun, isSucc] using ih h
        · simpa [results, hrun, isSucc] using ih h
        · have hrest := ih (taken_reading h)
          have hstep := ahead_taken h.reads hgood hword
          simp only [results, hrun, List.countP_cons]
          simp only [isSucc, if_true]
          omega

lemma ahead_le (h : Reading content o) : ahead o ≤ content.length := by
  unfold ahead
  split_ifs
  · rw [h.reads.content_eq]
    omega
  · exact Nat.zero_le _

lemma results_length (o : FileObject) (bufs : List (Option ℕ)) :
    (results o bufs).length = bufs.length := by
  induction bufs generalizing o with
  | nil => rfl
  | cons buf bufs ih =>
    unfold results
    cases nextItem buf o with
    | ok r o' => simp [ih]
    | error f o' => simp [ih]

lemma results_sound {bufs : List (Option ℕ)} (h : AtEvery L P Sound o (bufs.map .next)) :
    none ∉ results o bufs := by
  induction bufs generalizing o with
  | nil => simp [results]
  | cons buf bufs ih =>
    obtain ⟨⟨r, o', hrun, -⟩, hrest⟩ := h
    have haccess : access L P o (.next buf) = o' := by rw [access, hrun]
    rw [haccess] at hrest
    simpa [results, hrun] using ih hrest

/-- The caller passes a buffer, and it is large enough. -/
def NoRefusal (rs : List (Option ItemResult)) : Prop :=
  ∀ r ∈ rs, r ≠ some .invalidBuf ∧ ∀ n, r ≠ some (.smallBuf n)

/-- Sound calls with large enough buffers come to the end of the file. -/
theorem results_reach_eof (h : Reading content o) {bufs : List (Option ℕ)}
    (hsound : AtEvery L P Sound o (bufs.map .next)) (hbufs : NoRefusal (results o bufs))
    (hmany : content.length < 8 * bufs.length) : some .eof ∈ results o bufs := by
  by_contra hnone
  have hall : ∀ r ∈ results o bufs, isSucc r = true := by
    intro r hr
    have hsome : r ≠ none := fun hn => results_sound hsound (hn ▸ hr)
    have hne : r ≠ some .eof := fun heof => hnone (heof ▸ hr)
    obtain ⟨hinvalid, hsmall⟩ := hbufs r hr
    match r with
    | none => exact absurd rfl hsome
    | some .eof => exact absurd rfl hne
    | some .invalidBuf => exact absurd rfl hinvalid
    | some (.smallBuf n) => exact absurd rfl (hsmall n)
    | some (.succ n data) => rfl
  have hcount := countP_succ_le h bufs
  have hle := ahead_le h
  rw [List.countP_eq_length.2 hall, results_length] at hcount
  omega

/-- Every call of `next_item` in a run after a successful `open_for_read` is sound, exactly when
each finds the stream ended, or not failed and with the announced bytes in the file. The calls
hand out finitely many items in any case, and sound ones come to the end of the file. -/
theorem next_item_sound_iff {o₀ : FileObject} (hclosed : o₀.mFile.isOpen = false)
    (hopen : openForRead L P (some content) o₀ = .ok () o) (accesses : List Access) :
    (AtEvery L P Sound o accesses ↔ AtEvery L P Intact o accesses) ∧
      ∀ bufs : List (Option ℕ),
        8 * (results (after L P o accesses) bufs).countP isSucc ≤ content.length ∧
        (AtEvery L P Sound (after L P o accesses) (bufs.map .next) →
          NoRefusal (results (after L P o accesses) bufs) → content.length < 8 * bufs.length →
          some .eof ∈ results (after L P o accesses) bufs) := by
  have h := openForRead_reading P hclosed hopen
  refine ⟨atEvery_sound_iff h accesses, fun bufs => ?_⟩
  have hafter : Reading content (after L P o accesses) := after_reading h accesses
  exact ⟨(countP_succ_le hafter bufs).trans (ahead_le hafter), results_reach_eof hafter⟩

end Runs

section Examples

/-- The object that `open_for_read` leaves of a new one. -/
def openedOn (L : Layout) (P : Params) (content : Bytes) : FileObject :=
  match openForRead L P (some content) (newObject P) with
  | .ok _ o => o
  | .error _ o => o

/-- A length word of 1000 with nothing behind it but the header. -/
def shortFile : Bytes := encode 8 1000 ++ (headerOf gtestParams []).bytes

lemma open_shortFile : openForRead .trailing gtestParams (some shortFile) (newObject gtestParams) =
    .ok () (openedOn .trailing gtestParams shortFile) := rfl

theorem next_item_sound_iff_shortFile :
    AtEvery .trailing gtestParams Sound (openedOn .trailing gtestParams shortFile)
        [.next (some 100)] ↔
      AtEvery .trailing gtestParams Intact (openedOn .trailing gtestParams shortFile)
        [.next (some 100)] :=
  (next_item_sound_iff rfl open_shortFile [.next (some 100)]).1

/-- An item of 1000 bytes is handed out of a file that holds 64 behind the length word, and on
an empty file the first call takes its length from nowhere. -/
theorem next_item_unsound :
    (openForRead .trailing gtestParams (some shortFile) (newObject gtestParams) =
        .ok () (openedOn .trailing gtestParams shortFile) ∧
      ¬ AtEvery .trailing gtestParams Sound (openedOn .trailing gtestParams shortFile)
        [.next (some 2000)]) ∧
    (openForRead .trailing gtestParams (some []) (newObject gtestParams) =
        .ok () (openedOn .trailing gtestParams []) ∧
      ¬ AtEvery .trailing gtestParams Sound (openedOn .trailing gtestParams [])
        [.next (some 0)]) := by
  refine ⟨⟨open_shortFile, fun h => ?_⟩, rfl, fun h => ?_⟩
  · obtain ⟨⟨r, o', hrun, hfilled⟩, -⟩ := h
    have htaken : nextItem (some 2000) (openedOn .trailing gtestParams shortFile) =
        .ok (.succ 1000 (headerOf gtestParams []).bytes)
          (taken (openedOn .trailing gtestParams shortFile)) := rfl
    rw [htaken] at hrun
    cases hrun
    exact absurd hfilled.1 (by decide)
  · obtain ⟨⟨r, o', hrun, -⟩, -⟩ := h
    rw [nextItem_failed (some 0) rfl rfl] at hrun
    cases hrun

end Examples

/-! ### `block_data_source` -/

/-- `block_data_source`, without the bytes that `output_value` copies. -/
structure BlockDataSource where
  mFile : FileObject
  mDataReachEnd : Bool

variable (P : Params)

/-- `process`, with no result when it throws. -/
def BlockDataSource.process (d : BlockDataSource) : Option Bool × BlockDataSource :=
  if d.mDataReachEnd then (some false, d)
  else
    match nextItem (some P.blockSizeLimit) d.mFile with
    | .ok (.succ _ _) o' => (some true, ⟨o', false⟩)
    | .ok .eof o' => (some false, ⟨o', true⟩)
    | .ok _ o' => (none, ⟨o', false⟩)
    | .error _ o' => (none, ⟨o', false⟩)

def BlockDataSource.processes : ℕ → BlockDataSource → List (Option Bool)
  | 0, _ => []
  | n + 1, d => (d.process P).1 :: processes n (d.process P).2

section Source
variable {P} {content : Bytes}

lemma processes_ended (n : ℕ) {d : BlockDataSource} (h : d.mDataReachEnd = true) :
    d.processes P n = List.replicate n (some false) := by
  induction n with
  | zero => rfl
  | succ n ih =>
    have hprocess : d.process P = (some false, d) := if_pos h
    rw [BlockDataSource.processes, hprocess, ih, List.replicate_succ]

/-- The source hands out as many items as `next_item` at most, however often it is asked. -/
theorem processes_count_le (n : ℕ) {d : BlockDataSource} (h : Reading content d.mFile)
    (hend : d.mDataReachEnd = false) :
    (d.processes P n).count (some true) ≤
      (results d.mFile (List.replicate n (some P.blockSizeLimit))).countP isSucc := by
  induction n generalizing d with
  | zero => exact Nat.zero_le _
  | succ n ih =>
    have hread : Reading content (access .trailing P d.mFile (.next (some P.blockSizeLimit))) :=
      access_reading h _
    rw [BlockDataSource.processes, List.replicate_succ, results]
    unfold BlockDataSource.process
    rw [access] at hread
    rw [if_neg (by simp [hend])]
    cases hrun : nextItem (some P.blockSizeLimit) d.mFile with
    | error f o' =>
      rw [hrun] at hread
      have hrest := ih (d := ⟨o', false⟩) hread rfl
      simpa [isSucc] using hrest
    | ok r o' =>
      rw [hrun] at hread
      have hrest := ih (d := ⟨o', false⟩) hread rfl
      cases r with
      | succ outSize data =>
        simpa [isSucc, List.countP_cons] using hrest
      | eof =>
        simp only
        rw [processes_ended n rfl]
        simp [List.count_replicate]
      | invalidBuf => simpa [isSucc] using hrest
      | smallBuf m => simpa [isSucc] using hrest

/-- A data source on a file hands out finitely many items. -/
theorem processes_bounded {L : Layout} {o₀ o : FileObject} (hclosed : o₀.mFile.isOpen = false)
    (hopen : openForRead L P (some content) o₀ = .ok () o) (n : ℕ) :
    8 * (BlockDataSource.processes P n ⟨o, false⟩).count (some true) ≤ content.length := by
  have h := openForRead_reading P hclosed hopen
  have hcount : (BlockDataSource.processes P n ⟨o, false⟩).count (some true) ≤
      (results o (List.replicate n (some P.blockSizeLimit))).countP isSucc :=
    processes_count_le n h rfl
  have hsucc := countP_succ_le h (List.replicate n (some P.blockSizeLimit))
  have hle := ahead_le h
  omega

end Source

end PrivacyComputing.BlockFile.Sessions
