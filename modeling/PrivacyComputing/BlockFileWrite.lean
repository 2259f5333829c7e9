import PrivacyComputing.BlockFile
import PrivacyComputing.Calls
import Mathlib.Data.List.Induction

/-! A write session on a new `blockfile_impl_r`: the bytes on disk after the file
is opened for writing, filled and closed. -/
namespace PrivacyComputing.BlockFile
open LittleEndian Calls FileStream

section Steps
variable {α β : Type} {o : FileObject}

@[simp] lemma onFile_bind (f : FileStream → FileStream) (k : Unit → FileM β) :
    (onFile f >>= k) o = k () { o with mFile := f o.mFile } := rfl

@[simp] lemma fromFile_bind (f : FileStream → α × FileStream) (k : α → FileM β) :
    (fromFile f >>= k) o = k (f o.mFile).1 { o with mFile := (f o.mFile).2 } := rfl

@[simp] lemma onFile_apply (f : FileStream → FileStream) :
    onFile f o = .ok () { o with mFile := f o.mFile } := rfl

end Steps

def record (b : Bytes) : Bytes := encode 8 b.length ++ b

def records (items : List Bytes) : Bytes := items.flatMap record

/-- The block table after the items have been appended to an empty file. -/
def blocksOf (limit : ℕ) (items : List Bytes) : List BlockInfo :=
  items.foldl (fun blocks b => pushItem limit blocks b.length) []

@[simp] lemma record_length (b : Bytes) : (record b).length = b.length + 8 := by
  simp [record, Nat.add_comm]

lemma records_snoc (items : List Bytes) (b : Bytes) :
    records (items ++ [b]) = records items ++ record b := by
  simp [records]

lemma blocksOf_snoc (limit : ℕ) (items : List Bytes) (b : Bytes) :
    blocksOf limit (items ++ [b]) = pushItem limit (blocksOf limit items) b.length := by
  simp [blocksOf]

lemma endOfData_push (limit : ℕ) (blocks : List BlockInfo) (len : ℕ) :
    endOfData (pushItem limit blocks len) = endOfData blocks + len + 8 := by
  unfold pushItem endOfData
  cases h : blocks.getLast? with
  | none => simp
  | some bi => dsimp only; split_ifs <;> simp

lemma length_le_push (limit : ℕ) (blocks : List BlockInfo) (len : ℕ) :
    blocks.length ≤ (pushItem limit blocks len).length := by
  unfold pushItem
  cases h : blocks.getLast? with
  | none =>
    rw [List.getLast?_eq_none_iff.mp h]
    simp
  | some bi =>
    have hne : 0 < blocks.length := by
      cases blocks with
      | nil => cases h
      | cons => simp
    dsimp only
    split_ifs <;> simp
    omega

/-- The table starts with item 0, whatever is appended later. -/
lemma push_head (limit : ℕ) (blocks : List BlockInfo) (len : ℕ)
    (h : ∀ b ∈ blocks.head?, b.startItemIndex = 0) :
    ∃ b rest, pushItem limit blocks len = b :: rest ∧ b.startItemIndex = 0 := by
  unfold pushItem
  cases blocks with
  | nil => exact ⟨_, [], rfl, rfl⟩
  | cons a rest =>
    have ha : a.startItemIndex = 0 := h a rfl
    cases hl : (a :: rest).getLast? with
    | none => simp at hl
    | some bi =>
      dsimp only
      split_ifs
      · exact ⟨a, _, List.cons_append, ha⟩
      · cases rest with
        | nil =>
          cases hl
          exact ⟨_, [], rfl, ha⟩
        | cons c rest => exact ⟨a, _, rfl, ha⟩

theorem blocksOf_head (limit : ℕ) (items : List Bytes) (hne : items ≠ []) :
    ∃ b rest, blocksOf limit items = b :: rest ∧ b.startItemIndex = 0 := by
  induction items using List.reverseRecOn with
  | nil => exact absurd rfl hne
  | append_singleton items b ih =>
    rw [blocksOf_snoc]
    apply push_head
    intro a ha
    by_cases hi : items = []
    · subst hi
      simp [blocksOf] at ha
    · obtain ⟨c, rest, hc, hz⟩ := ih hi
      rw [hc] at ha
      cases ha
      exact hz

/-- The last block holds the items from a multiple of the limit on; a limit of zero gives
one block per item. -/
theorem blocksOf_shape (limit : ℕ) (items : List Bytes) (b : Bytes) :
    ∃ front last, blocksOf limit (items ++ [b]) = front ++ [last] ∧
      front.length = items.length / max limit 1 ∧
      last.startItemIndex = front.length * max limit 1 ∧
      last.endItemIndex = items.length + 1 := by
  induction items using List.reverseRecOn generalizing b with
  | nil => exact ⟨[], ⟨0, 1, 0, b.length + 8⟩, by simp [blocksOf, pushItem], by simp⟩
  | append_singleton items c ih =>
    obtain ⟨front, last, hblocks, hfront, hstart, hend⟩ := ih c
    have hdiv := Nat.div_add_mod items.length (max limit 1)
    have hmod := Nat.mod_lt items.length (show 0 < max limit 1 by omega)
    rw [Nat.mul_comm, ← hfront] at hdiv
    rw [blocksOf_snoc, hblocks]
    simp only [pushItem, List.getLast?_append, List.getLast?_singleton, Option.some_or,
      List.dropLast_concat, List.length_append, List.length_singleton, hend, hstart]
    split_ifs with h
    · refine ⟨front ++ [last], _, rfl, ?_, ?_, rfl⟩
      · rw [List.length_append, List.length_singleton]
        symm
        apply Nat.div_eq_of_lt_le
        · rw [Nat.succ_mul]
          omega
        · rw [Nat.succ_mul, Nat.succ_mul]
          omega
      · rw [List.length_append, List.length_singleton, Nat.succ_mul]
        dsimp only
        omega
    · refine ⟨front, _, rfl, ?_, rfl, rfl⟩
      symm
      apply Nat.div_eq_of_lt_le
      · omega
      · rw [Nat.succ_mul]
        omega

theorem endOfData_blocksOf (limit : ℕ) (items : List Bytes) :
    endOfData (blocksOf limit items) = (records items).length := by
  induction items using List.reverseRecOn with
  | nil => rfl
  | append_singleton items b ih =>
    rw [blocksOf_snoc, endOfData_push, ih, records_snoc, List.length_append, record_length]
    omega

section Write
variable (P : Params)

lemma readHeader_of_valid {o : FileObject} (h : o.mIsHeaderValid = true) :
    readHeader P o = .ok () o := by
  simp [readHeader, h]

lemma readAllBlockInfo_of_valid {o : FileObject} (h : o.mIsHeaderValid = true)
    (hb : o.mIsBlockInfoValid = true) : readAllBlockInfo P o = .ok () o := by
  rw [readAllBlockInfo, bind_ok (readHeader_of_valid P h)]
  simp [hb]

/-- The header of an empty file is taken as valid without being read. -/
lemma readHeader_of_empty {o : FileObject} (h : o.mIsHeaderValid = false)
    (hf : o.mFile = .openOut) : readHeader P o = .ok () { o with mIsHeaderValid := true } := by
  have ht : openOut.tellg = (0, openOut) := rfl
  have hfin : openOut.seekg 0 .fin = openOut := rfl
  have hbeg : openOut.seekg 0 .beg = openOut := rfl
  simp [readHeader, h, hf, ht, hfin, hbeg]

/-- On an empty file the seek to the block table fails; `append_item` clears the stream. -/
lemma readAllBlockInfo_of_empty {o : FileObject} (h : o.mIsHeaderValid = true)
    (hb : o.mIsBlockInfoValid = false) (hf : o.mFile = .openOut)
    (hn : o.mHeader.blockNumber = 0) :
    readAllBlockInfo P o = .ok () { o with
      mIsBlockInfoValid := true
      mFile := { openOut with failbit := true } } := by
  have ht : openOut.tellg = (0, openOut) := rfl
  have hneg : openOut.seekg (-(P.headerSize : ℤ)) .fin = { openOut with failbit := true } := by
    apply seekg_negative rfl
    simp [target, Params.headerSize, openOut]
    omega
  have hbeg : ({ openOut with failbit := true } : FileStream).seekg 0 .beg =
      { openOut with failbit := true } := rfl
  rw [readAllBlockInfo, bind_ok (readHeader_of_valid P h)]
  simp [hb, hf, ht, hn, readBlocks, hneg, hbeg]

def headerOf (items : List Bytes) : Header where
  magicNumber := P.magicNumber
  versionNumber := P.versionNumber
  blockNumber := (blocksOf P.itemNumPerBlockLimit items).length
  itemNumber := items.length
  dataHash := List.replicate P.hashBytes 0

/-- The object in a write session after at least one item. -/
def written (items : List Bytes) : FileObject where
  mFile := atEnd (records items)
  mHeader := headerOf P items
  mIsHeaderValid := true
  mIsBlockInfoValid := true
  mBlockInfos := blocksOf P.itemNumPerBlockLimit items

lemma write_record (items : List Bytes) (b : Bytes) :
    (((atEnd (records items)).seekp (records items).length .beg).write
      (encode 8 b.length)).write b = atEnd (records (items ++ [b])) := by
  rw [seekp_atEnd, write_atEnd, write_atEnd, records_snoc, record, List.append_assoc]

theorem appendItem_first (b : Bytes) :
    appendItem P b { newObject P with mFile := openOut } = .ok () (written P [b]) := by
  rw [appendItem, bind_ok (readHeader_of_empty P rfl rfl),
    bind_ok (readAllBlockInfo_of_empty P rfl rfl rfl rfl)]
  have hw := write_record [] b
  have hclear : ({ openOut with failbit := true } : FileStream).clear = atEnd (records []) := rfl
  simp only [onFile_bind, modify_bind, get_bind, onFile_apply, hclear]
  simp [pushItem, endOfData, newObject, written, headerOf, blocksOf] at hw ⊢
  exact hw

theorem appendItem_next (items : List Bytes) (b : Bytes) :
    appendItem P b (written P items) = .ok () (written P (items ++ [b])) := by
  rw [appendItem, bind_ok (readHeader_of_valid P rfl),
    bind_ok (readAllBlockInfo_of_valid P rfl rfl)]
  have hw := write_record items b
  have hlen := length_le_push P.itemNumPerBlockLimit
    (blocksOf P.itemNumPerBlockLimit items) b.length
  have hoff : ((endOfData (pushItem P.itemNumPerBlockLimit
      (blocksOf P.itemNumPerBlockLimit items) b.length) : ℤ) - 8 - b.length) =
      (records items).length := by
    rw [endOfData_push, endOfData_blocksOf]
    omega
  simp only [onFile_bind, modify_bind, get_bind, onFile_apply]
  have hm : (written P items).mBlockInfos = blocksOf P.itemNumPerBlockLimit items := rfl
  have hclear : (written P items).mFile.clear = atEnd (records items) := rfl
  rw [hm, hoff, hclear, hw]
  simp only [written, headerOf, blocksOf_snoc, List.length_append, List.length_singleton]
  rw [Nat.add_sub_cancel' hlen]

def appendItems : List Bytes → FileM Unit
  | [] => pure ()
  | b :: bs => do
    appendItem P b
    appendItems bs

lemma appendItems_next (items more : List Bytes) :
    appendItems P more (written P items) = .ok () (written P (items ++ more)) := by
  induction more generalizing items with
  | nil => simp [appendItems]
  | cons b more ih =>
    rw [appendItems, bind_ok (appendItem_next P items b), ih]
    simp

theorem appendItems_run (items : List Bytes) (hne : items ≠ []) :
    appendItems P items { newObject P with mFile := openOut } = .ok () (written P items) := by
  cases items with
  | nil => exact absurd rfl hne
  | cons b more => rw [appendItems, bind_ok (appendItem_first P b), appendItems_next]; rfl

def tableBytes (blocks : List BlockInfo) : Bytes := blocks.flatMap BlockInfo.bytes

/-- The file that a write session leaves: the records, the block table and the header. -/
def diskOf (items : List Bytes) : Bytes :=
  records items ++ tableBytes (blocksOf P.itemNumPerBlockLimit items) ++ (headerOf P items).bytes

/-- The object after `close`, with the finished file still recorded in its stream. -/
def closedObject (items : List Bytes) : FileObject where
  mFile := (atEnd (diskOf P items)).close
  mHeader := headerOf P items
  mIsHeaderValid := false
  mIsBlockInfoValid := false
  mBlockInfos := []

lemma getLast_blocksOf (items : List Bytes) (hne : items ≠ []) :
    ∃ back, (blocksOf P.itemNumPerBlockLimit items).getLast? = some back ∧
      back.endFilePos = (records items).length := by
  obtain ⟨b, rest, hb, -⟩ := blocksOf_head P.itemNumPerBlockLimit items hne
  have hend := endOfData_blocksOf P.itemNumPerBlockLimit items
  unfold endOfData at hend
  cases hl : (blocksOf P.itemNumPerBlockLimit items).getLast? with
  | none => simp [hb] at hl
  | some back =>
    rw [hl] at hend
    exact ⟨back, rfl, hend⟩

theorem close_written (items : List Bytes) (hne : items ≠ []) :
    close (written P items) = .ok () (closedObject P items) := by
  obtain ⟨back, hlast, hpos⟩ := getLast_blocksOf P items hne
  have hm : (written P items).mBlockInfos = blocksOf P.itemNumPerBlockLimit items := rfl
  have hf : (written P items).mFile = atEnd (records items) := rfl
  have hh : (written P items).mHeader = headerOf P items := rfl
  rw [close, get_bind, hm, hlast]
  simp only [onFile_bind, modify_apply, hf, hh, hpos, seekp_atEnd, foldl_write_atEnd, write_atEnd]
  rfl

end Write
end PrivacyComputing.BlockFile
