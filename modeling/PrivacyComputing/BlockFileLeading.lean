import PrivacyComputing.BlockFileRead

/-! `blockfile_impl`, the block file with the header and the block table in front of
the records. Its object, `open_for_write` and `next_item` are those of the layout with
the trailing table; the methods that know where header and table stand are given here. -/
namespace PrivacyComputing.BlockFile.Leading
open LittleEndian Calls FileStream

variable (P : Params)

def blockStartOffset : ℕ := P.headerSize + blockInfoSize * P.blockNumLimit

/-- The header after a read that delivered `data`, which may be too short for all of it. -/
def overlay (h : Header) (data : Bytes) : Header :=
  Header.parse ((data ++ h.bytes.drop data.length).take P.headerSize)

def readHeader : FileM Unit := do
  if (← get).mIsHeaderValid then return
  let prev ← fromFile FileStream.tellg
  onFile (·.seekg 0 .beg)
  let data ← fromFile (·.read P.headerSize)
  modify fun o => { o with mHeader := overlay P o.mHeader data }
  let o ← get
  if o.mFile.eofbit = false ∧ o.mHeader.magicNumber ≠ P.magicNumber then
    throw .invalidBlockfile
  modify fun o => { o with mIsHeaderValid := true }
  onFile (·.seekg prev .beg)

def readAllBlockInfo : FileM Unit := do
  readHeader P
  if (← get).mIsBlockInfoValid then return
  onFile (·.seekg P.headerSize .beg)
  readBlocks (← get).mHeader.blockNumber
  modify fun o => { o with mIsBlockInfoValid := true }

def resetReadItem : FileM Unit := do
  onFile FileStream.clear
  readHeader P
  readAllBlockInfo P
  onFile (·.seekg (blockStartOffset P) .beg)

/-- `disk` is the content of the file at the path, `none` when there is no such file. -/
def openForRead (disk : Option Bytes) : FileM Unit := do
  if (← get).mFile.isOpen then throw .alreadyOpen
  match disk with
  | none => throw .fileOpenFailure
  | some content =>
    onFile fun _ => .openIn content
    resetReadItem P

/-- The block table after an item of length `len` is added. -/
def pushItem (blocks : List BlockInfo) (len : ℕ) : List BlockInfo :=
  match blocks.getLast? with
  | none => [⟨0, 1, blockStartOffset P, blockStartOffset P + len + 8⟩]
  | some bi =>
    if bi.endItemIndex - bi.startItemIndex ≥ P.itemNumPerBlockLimit then
      blocks ++ [⟨bi.endItemIndex, bi.endItemIndex + 1, bi.endFilePos, bi.endFilePos + len + 8⟩]
    else
      blocks.dropLast ++ [{ bi with
        endItemIndex := bi.endItemIndex + 1
        endFilePos := bi.endFilePos + len + 8 }]

def appendItem (data : Bytes) : FileM Unit := do
  readHeader P
  readAllBlockInfo P
  onFile FileStream.clear
  modify fun o =>
    let blocks := pushItem P o.mBlockInfos data.length
    { o with
      mHeader := { o.mHeader with
        itemNumber := o.mHeader.itemNumber + 1
        magicNumber := P.magicNumber
        versionNumber := P.versionNumber
        blockNumber := o.mHeader.blockNumber + (blocks.length - o.mBlockInfos.length) }
      mBlockInfos := blocks }
  let o ← get
  let back := o.mBlockInfos.getLastD ⟨0, 0, 0, 0⟩
  let offset := P.headerSize + (o.mBlockInfos.length - 1) * blockInfoSize
  onFile (·.seekp offset .beg)
  onFile (·.write back.bytes)
  onFile (·.seekp 0 .beg)
  onFile (·.write o.mHeader.bytes)
  onFile (·.seekp (back.endFilePos - data.length - 8) .beg)
  onFile (·.write (encode 8 data.length))
  onFile (·.write data)

def itemNumber : FileM ℕ := do
  readHeader P
  return (← get).mHeader.itemNumber

def close : FileM Unit :=
  modify fun o => { o with
    mIsHeaderValid := false
    mIsBlockInfoValid := false
    mBlockInfos := []
    mFile := o.mFile.close }

def appendItems : List Bytes → FileM Unit
  | [] => pure ()
  | b :: bs => do
    appendItem P b
    appendItems bs

section Table

/-- A block entry of the other layout, where the records start at 0, moved to this one. -/
def shift (k : ℕ) (b : BlockInfo) : BlockInfo :=
  { b with startFilePos := k + b.startFilePos, endFilePos := k + b.endFilePos }

/-- The block table after the items have been appended to an empty file. -/
def blocksOf (items : List Bytes) : List BlockInfo :=
  items.foldl (fun blocks b => pushItem P blocks b.length) []

lemma blocksOf_snoc (items : List Bytes) (b : Bytes) :
    blocksOf P (items ++ [b]) = pushItem P (blocksOf P items) b.length := by
  simp [blocksOf]

lemma pushItem_shift (blocks : List BlockInfo) (len : ℕ) :
    pushItem P (blocks.map (shift (blockStartOffset P))) len =
      (BlockFile.pushItem P.itemNumPerBlockLimit blocks len).map (shift (blockStartOffset P)) := by
  unfold pushItem BlockFile.pushItem
  rw [List.getLast?_map]
  cases blocks.getLast? with
  | none => simp [shift, Nat.add_assoc]
  | some bi =>
    simp only [Option.map_some, shift]
    split_ifs
    · simp [shift, Nat.add_assoc]
    · simp [shift, Nat.add_assoc, List.map_dropLast]

theorem blocksOf_eq (items : List Bytes) :
    blocksOf P items = (BlockFile.blocksOf P.itemNumPerBlockLimit items).map
      (shift (blockStartOffset P)) := by
  induction items using List.reverseRecOn with
  | nil => rfl
  | append_singleton items b ih =>
    rw [blocksOf_snoc, ih, pushItem_shift, BlockFile.blocksOf_snoc]

/-- The index of the table entry for the item that follows `n` items. -/
def entryIndex (n : ℕ) : ℕ := n / max P.itemNumPerBlockLimit 1

theorem blocksOf_length (items : List Bytes) (b : Bytes) :
    (blocksOf P (items ++ [b])).length = entryIndex P items.length + 1 := by
  obtain ⟨front, last, hblocks, hfront, -, -⟩ :=
    blocksOf_shape P.itemNumPerBlockLimit items b
  rw [blocksOf_eq, hblocks, List.length_map, List.length_append, hfront, entryIndex,
    List.length_singleton]

/-- The file position behind the last record. -/
def recordsEnd (items : List Bytes) : ℕ := blockStartOffset P + (records items).length

/-- The entry of the block that holds the last item. -/
def lastBlock (items : List Bytes) : BlockInfo := (blocksOf P items).getLastD ⟨0, 0, 0, 0⟩

theorem lastBlock_endFilePos (items : List Bytes) (b : Bytes) :
    (lastBlock P (items ++ [b])).endFilePos = recordsEnd P items + b.length + 8 := by
  obtain ⟨front, last, hblocks, -, -, -⟩ := blocksOf_shape P.itemNumPerBlockLimit items b
  have hend := endOfData_blocksOf P.itemNumPerBlockLimit (items ++ [b])
  rw [hblocks, records_snoc] at hend
  simp [endOfData] at hend
  simp [lastBlock, blocksOf_eq, hblocks, shift, hend, recordsEnd, Nat.add_assoc]

lemma length_le_blocksOf (items : List Bytes) (b : Bytes) :
    (blocksOf P items).length ≤ (blocksOf P (items ++ [b])).length := by
  rw [blocksOf_eq, blocksOf_eq, List.length_map, List.length_map, BlockFile.blocksOf_snoc]
  exact length_le_push _ _ _

lemma headerOf_blockNumber (items : List Bytes) :
    (headerOf P items).blockNumber = (blocksOf P items).length := by
  rw [blocksOf_eq, List.length_map]
  rfl

end Table

section Session

lemma readHeader_of_valid {o : FileObject} (h : o.mIsHeaderValid = true) :
    readHeader P o = .ok () o := by
  simp [readHeader, h]

lemma readAllBlockInfo_of_valid {o : FileObject} (h : o.mIsHeaderValid = true)
    (hb : o.mIsBlockInfoValid = true) : readAllBlockInfo P o = .ok () o := by
  rw [readAllBlockInfo, bind_ok (readHeader_of_valid P h)]
  simp [hb]

/-- A header whose fields fit is read back from its bytes. -/
lemma parse_bytes (h : Header) (hb : h.blockNumber < 2 ^ 64) (hi : h.itemNumber < 2 ^ 64) :
    Header.parse h.bytes = h := by
  have hm := decode_encode_of_lt (w := 8) h.magicNumber.toNat_lt
  have hv := decode_encode_of_lt (w := 8) h.versionNumber.toNat_lt
  have hb := decode_encode_of_lt (w := 8) (n := h.blockNumber) (by omega)
  have hi := decode_encode_of_lt (w := 8) (n := h.itemNumber) (by omega)
  have hd (n k : ℕ) (hk : 8 ≤ k) : (encode 8 n).drop k = [] :=
    List.drop_eq_nil_of_le (by simpa using hk)
  simp [Header.parse, word, Header.bytes, hm, hv, hb, hi, List.drop_append, hd]

/-- The object in a write session, after `open_for_write` on a new one. -/
def opened : FileObject := { newObject P with mFile := openOut }

/-- The object after items have been appended, with the bytes of the file. -/
def written (items : List Bytes) (content : Bytes) (p : ℕ) : FileObject where
  mFile := writeAt content p
  mHeader := headerOf P items
  mIsHeaderValid := true
  mIsBlockInfoValid := true
  mBlockInfos := blocksOf P items

/-- What appending `b` behind `items` makes of the file: the entry of the last block, the
header and the record are written. -/
def appended (items : List Bytes) (b : Bytes) (content : Bytes) : Bytes :=
  patch
    (patch
      (patch content (P.headerSize + entryIndex P items.length * blockInfoSize)
        (lastBlock P (items ++ [b])).bytes)
      0 (headerOf P (items ++ [b])).bytes)
    (recordsEnd P items) (record b)

/-- The writes of one `append_item`, in their order. -/
def store (s : FileStream) (offset : ℕ) (back : BlockInfo) (header : Header) (data : Bytes) :
    FileStream :=
  let table := (s.seekp offset .beg).write back.bytes
  let front := (table.seekp 0 .beg).write header.bytes
  let length := (front.seekp (back.endFilePos - data.length - 8) .beg).write
    (encode 8 data.length)
  length.write data

lemma store_appended (items : List Bytes) (b content : Bytes) (p : ℕ) :
    store (writeAt content p) (P.headerSize + entryIndex P items.length * blockInfoSize)
      (lastBlock P (items ++ [b])) (headerOf P (items ++ [b])) b =
      writeAt (appended P items b content) (recordsEnd P (items ++ [b])) := by
  have hzero : ((0 : ℕ) : ℤ) = 0 := rfl
  have hpos : ((lastBlock P (items ++ [b])).endFilePos : ℤ) - b.length - 8 =
      (recordsEnd P items : ℕ) := by
    rw [lastBlock_endFilePos]
    omega
  have hend : recordsEnd P items + (encode 8 b.length).length + b.length =
      recordsEnd P (items ++ [b]) := by
    rw [recordsEnd, recordsEnd, records_snoc, List.length_append, record_length, encode_length]
    omega
  simp only [store]
  rw [seekp_writeAt, write_writeAt, ← hzero, seekp_writeAt, write_writeAt, hpos, seekp_writeAt,
    write_writeAt, write_writeAt, patch_append, hend]
  rfl

lemma headerOf_snoc (items : List Bytes) (b : Bytes) :
    (⟨P.magicNumber, P.versionNumber, (headerOf P items).blockNumber +
      ((blocksOf P (items ++ [b])).length - (blocksOf P items).length),
      items.length + 1, List.replicate P.hashBytes 0⟩ : Header) = headerOf P (items ++ [b]) := by
  have hnumber := headerOf_blockNumber P (items ++ [b])
  rw [headerOf_blockNumber, Nat.add_sub_cancel' (length_le_blocksOf P items b), ← hnumber]
  simp [headerOf]

theorem appendItem_next (items : List Bytes) (b content : Bytes) (p : ℕ) :
    appendItem P b (written P items content p) = .ok () (written P (items ++ [b])
      (appended P items b content) (recordsEnd P (items ++ [b]))) := by
  have hblocks : pushItem P (written P items content p).mBlockInfos b.length =
      blocksOf P (items ++ [b]) := (blocksOf_snoc P items b).symm
  have hindex : (blocksOf P (items ++ [b])).length - 1 = entryIndex P items.length := by
    rw [blocksOf_length, Nat.add_sub_cancel]
  have hclear : (written P items content p).mFile.clear = writeAt content p := rfl
  have hheader : (⟨P.magicNumber, P.versionNumber, (written P items content p).mHeader.blockNumber +
      ((blocksOf P (items ++ [b])).length - (written P items content p).mBlockInfos.length),
      (written P items content p).mHeader.itemNumber + 1,
      (written P items content p).mHeader.dataHash⟩ : Header) = headerOf P (items ++ [b]) :=
    headerOf_snoc P items b
  rw [appendItem, bind_ok (readHeader_of_valid P rfl),
    bind_ok (readAllBlockInfo_of_valid P rfl rfl)]
  simp only [onFile_bind, modify_bind, get_bind, onFile_apply, hclear, hblocks, hindex, hheader]
  exact congrArg (fun s => EStateM.Result.ok ()
    (FileObject.mk s (headerOf P (items ++ [b])) true true (blocksOf P (items ++ [b]))))
    (store_appended P items b content p)

/-- The first read of a write session finds nothing: the stream was opened for output. -/
lemma readHeader_of_opened :
    readHeader P (opened P) = .ok () { opened P with
      mIsHeaderValid := true
      mFile := { openOut with failbit := true } } := by
  have hover : overlay P (newObject P).mHeader [] = (newObject P).mHeader := by
    have hlen : (newObject P).mHeader.bytes.length = P.headerSize := by
      simp [Header.bytes, newObject, Params.headerSize]
      omega
    rw [overlay, List.nil_append, List.length_nil, List.drop_zero, ← hlen, List.take_length]
    exact parse_bytes _ (by simp [newObject]) (by simp [newObject])
  have ht : openOut.tellg = (0, openOut) := rfl
  have hbeg : openOut.seekg 0 .beg = openOut := rfl
  have hread := read_openOut P.headerSize (by rw [Params.headerSize]; omega)
  have hback : ({ openOut with eofbit := true, failbit := true } : FileStream).seekg 0 .beg =
      { openOut with failbit := true } := rfl
  have hover' := hover
  simp only [newObject] at hover'
  simp [readHeader, opened, newObject, ht, hbeg, hread, hover', hback]

lemma readAllBlockInfo_of_opened {o : FileObject} (h : o.mIsHeaderValid = true)
    (hb : o.mIsBlockInfoValid = false) (hf : o.mFile = { openOut with failbit := true })
    (hn : o.mHeader.blockNumber = 0) :
    readAllBlockInfo P o = .ok () { o with mIsBlockInfoValid := true } := by
  have hseek : ({ openOut with failbit := true } : FileStream).seekg P.headerSize .beg =
      { openOut with failbit := true } := rfl
  rw [readAllBlockInfo, bind_ok (readHeader_of_valid P h)]
  simp [hb, hn, hf, hseek, readBlocks]

theorem appendItem_first (b : Bytes) :
    appendItem P b (opened P) = .ok () (written P [b] (appended P [] b [])
      (recordsEnd P [b])) := by
  rw [appendItem, bind_ok (readHeader_of_opened P),
    bind_ok (readAllBlockInfo_of_opened P rfl rfl rfl rfl)]
  have hclear : ({ openOut with failbit := true } : FileStream).clear = writeAt [] 0 := rfl
  have hblocks : pushItem P [] b.length = blocksOf P ([] ++ [b]) := rfl
  have hindex : (blocksOf P ([] ++ [b])).length - 1 = entryIndex P ([] : List Bytes).length := by
    rw [blocksOf_length, Nat.add_sub_cancel]
  have hheader : (⟨P.magicNumber, P.versionNumber, 0 +
      ((blocksOf P ([] ++ [b])).length - 0), 0 + 1, List.replicate P.hashBytes 0⟩ : Header) =
      headerOf P ([] ++ [b]) := headerOf_snoc P [] b
  have hstore := store_appended P [] b [] 0
  have hobj : (opened P).mBlockInfos = [] := rfl
  simp only [onFile_bind, modify_bind, get_bind, onFile_apply, hclear, hobj, hblocks, hindex]
  exact congrArg (fun s => EStateM.Result.ok ()
    (FileObject.mk s (headerOf P ([] ++ [b])) true true (blocksOf P ([] ++ [b])))) hstore

/-- The bytes of the file while `more` is appended behind `items`. -/
def contentFrom (items : List Bytes) (content : Bytes) : List Bytes → Bytes
  | [] => content
  | b :: more => contentFrom (items ++ [b]) (appended P items b content) more

/-- The bytes of the file after the items have been appended to an empty one. -/
def contentOf (items : List Bytes) : Bytes := contentFrom P [] [] items

lemma contentFrom_snoc (items more : List Bytes) (b content : Bytes) :
    contentFrom P items content (more ++ [b]) =
      appended P (items ++ more) b (contentFrom P items content more) := by
  induction more generalizing items content with
  | nil => simp [contentFrom]
  | cons c more ih => simp [contentFrom, ih]

lemma contentOf_snoc (items : List Bytes) (b : Bytes) :
    contentOf P (items ++ [b]) = appended P items b (contentOf P items) := by
  simp [contentOf, contentFrom_snoc]

lemma appendItems_next (items more : List Bytes) (content : Bytes) (p : ℕ) :
    ∃ q, appendItems P more (written P items content p) = .ok ()
      (written P (items ++ more) (contentFrom P items content more) q) := by
  induction more generalizing items content p with
  | nil => exact ⟨p, by simp [appendItems, contentFrom]⟩
  | cons b more ih =>
    obtain ⟨q, hq⟩ := ih (items ++ [b]) (appended P items b content) (recordsEnd P (items ++ [b]))
    refine ⟨q, ?_⟩
    rw [appendItems, bind_ok (appendItem_next P items b content p), hq, contentFrom]
    simp

theorem appendItems_run (items : List Bytes) (hne : items ≠ []) :
    ∃ q, appendItems P items (opened P) = .ok () (written P items (contentOf P items) q) := by
  cases items with
  | nil => exact absurd rfl hne
  | cons b more =>
    obtain ⟨q, hq⟩ := appendItems_next P [b] more (appended P [] b []) (recordsEnd P [b])
    refine ⟨q, ?_⟩
    rw [appendItems, bind_ok (appendItem_first P b), hq]
    rfl

/-- A session that has appended `items` appends one more. -/
theorem appendItem_run (items : List Bytes) (b : Bytes) :
    ∃ o o', appendItems P items (opened P) = .ok () o ∧ appendItem P b o = .ok () o' ∧
      o.mFile.content = contentOf P items ∧ o'.mFile.content = contentOf P (items ++ [b]) := by
  by_cases hne : items = []
  · subst hne
    exact ⟨opened P, _, rfl, appendItem_first P b, rfl, rfl⟩
  · obtain ⟨q, hq⟩ := appendItems_run P items hne
    exact ⟨_, _, hq, appendItem_next P items b _ q, rfl, by rw [contentOf_snoc]; rfl⟩

end Session

section Records

/-- The bytes from `block_start_offset` to the end of the last record. -/
def SameRecords (items : List Bytes) (before after : Bytes) : Prop :=
  ∀ k, blockStartOffset P ≤ k → k < recordsEnd P items → after[k]? = before[k]?

/-- The records of the items stand one behind the other from `block_start_offset` on. -/
def RecordsStored (items : List Bytes) (content : Bytes) : Prop :=
  ∀ k, k < (records items).length → content[blockStartOffset P + k]? = (records items)[k]?

/-- The table entry that appending behind `items` writes lies in the table area, or else
behind all the records. -/
def EntryClear (items : List Bytes) : Prop :=
  entryIndex P items.length < P.blockNumLimit ∨
    (records items).length ≤ (entryIndex P items.length - P.blockNumLimit) * blockInfoSize

/-- The session that has appended `items` and then appends `b` leaves every byte of the records
of `items`. -/
def AppendKeeps (items : List Bytes) (b : Bytes) : Prop :=
  ∃ o o', appendItems P items (opened P) = .ok () o ∧ appendItem P b o = .ok () o' ∧
    SameRecords P items o.mFile.content o'.mFile.content

lemma bytes_length (b : BlockInfo) : b.bytes.length = blockInfoSize := by
  simp [BlockInfo.bytes, blockInfoSize]

lemma recordsEnd_snoc (items : List Bytes) (b : Bytes) :
    recordsEnd P (items ++ [b]) = recordsEnd P items + (record b).length := by
  rw [recordsEnd, recordsEnd, records_snoc, List.length_append, Nat.add_assoc]

lemma recordsEnd_le_contentOf (items : List Bytes) (hne : items ≠ []) :
    recordsEnd P items ≤ (contentOf P items).length := by
  cases items using List.reverseRecOn with
  | nil => exact absurd rfl hne
  | append_singleton items b =>
    rw [contentOf_snoc, appended, length_patch, recordsEnd_snoc]
    exact le_max_right _ _

/-- The record written last and the header never touch earlier records; the table entry does
not either where it is clear of them. -/
theorem appended_sameRecords (items : List Bytes) (b content : Bytes)
    (hlen : items ≠ [] → recordsEnd P items ≤ content.length) (hclear : EntryClear P items) :
    SameRecords P items content (appended P items b content) := by
  intro k hlow hhigh
  have hne : items ≠ [] := by
    rintro rfl
    simp [recordsEnd, records] at hhigh
    omega
  have hlen := hlen hne
  have hheader := header_length P (items ++ [b])
  have hentry := bytes_length (lastBlock P (items ++ [b]))
  have hk : k < content.length := by omega
  have htable : k < (patch content (P.headerSize + entryIndex P items.length * blockInfoSize)
      (lastBlock P (items ++ [b])).bytes).length := by
    rw [length_patch]
    omega
  unfold appended
  rw [getElem?_patch_outside _ _ _ _ (by rw [length_patch]; omega) (Or.inl hhigh),
    getElem?_patch_outside _ _ _ _ htable (Or.inr (by rw [blockStartOffset] at hlow; omega)),
    getElem?_patch_outside _ _ _ _ hk]
  rw [hentry]
  simp only [EntryClear, recordsEnd, blockStartOffset, blockInfoSize] at hclear hlow hhigh ⊢
  omega

theorem appended_recordsStored (items : List Bytes) (b content : Bytes)
    (hlen : items ≠ [] → recordsEnd P items ≤ content.length) (hclear : EntryClear P items)
    (hstored : RecordsStored P items content) :
    RecordsStored P (items ++ [b]) (appended P items b content) := by
  intro k hk
  rw [records_snoc] at hk ⊢
  by_cases hold : k < (records items).length
  · have hsame := appended_sameRecords P items b content hlen hclear (blockStartOffset P + k)
      (Nat.le_add_right _ _) (by rw [recordsEnd]; omega)
    rw [hsame, hstored k hold, List.getElem?_append_left hold]
  · have hnew : k - (records items).length < (record b).length := by
      rw [List.length_append] at hk
      omega
    have hpos : blockStartOffset P + k =
        recordsEnd P items + (k - (records items).length) := by
      rw [recordsEnd]
      omega
    rw [hpos, appended, getElem?_patch_inside _ _ _ _ hnew,
      List.getElem?_append_right (by omega)]

theorem contentOf_recordsStored (items : List Bytes)
    (hclear : ∀ n < items.length, EntryClear P (items.take n)) :
    RecordsStored P items (contentOf P items) := by
  induction items using List.reverseRecOn with
  | nil =>
    intro k hk
    simp [records] at hk
  | append_singleton items b ih =>
    have hold : RecordsStored P items (contentOf P items) := by
      apply ih
      intro n hn
      have h := hclear n (by rw [List.length_append]; omega)
      rwa [List.take_append_of_le_length (by omega)] at h
    have hlast := hclear items.length (by simp)
    rw [List.take_left] at hlast
    rw [contentOf_snoc]
    exact appended_recordsStored P items b _ (recordsEnd_le_contentOf P items) hlast hold

/-- In every state of a session whose table entries stay clear of the records, the next append
leaves the stored records alone, and all of them are in the file at the end. -/
theorem appends_keep_records (items : List Bytes)
    (hclear : ∀ n < items.length, EntryClear P (items.take n)) :
    (∀ n (h : n < items.length), AppendKeeps P (items.take n) (items.get ⟨n, h⟩)) ∧
      ∃ o, appendItems P items (opened P) = .ok () o ∧
        RecordsStored P items o.mFile.content := by
  constructor
  · intro n hn
    obtain ⟨o, o', hrun, happ, hc, hc'⟩ := appendItem_run P (items.take n) (items.get ⟨n, hn⟩)
    refine ⟨o, o', hrun, happ, ?_⟩
    rw [hc, hc', contentOf_snoc]
    exact appended_sameRecords P _ _ _ (recordsEnd_le_contentOf P _) (hclear n hn)
  · by_cases hne : items = []
    · subst hne
      exact ⟨opened P, rfl, contentOf_recordsStored P [] hclear⟩
    · obtain ⟨q, hq⟩ := appendItems_run P items hne
      exact ⟨_, hq, contentOf_recordsStored P items hclear⟩

end Records

/-- Room for one block of one item. -/
def tinyParams : Params := { gtestParams with blockNumLimit := 1, itemNumPerBlockLimit := 1 }

theorem appends_keep_records_two_items :
    AppendKeeps { gtestParams with itemNumPerBlockLimit := 1 } [[7, 7]] [5] := by
  have hclear : ∀ n < ([[7, 7], [5]] : List Bytes).length, EntryClear
      { gtestParams with itemNumPerBlockLimit := 1 } (([[7, 7], [5]] : List Bytes).take n) := by
    intro n hn
    have hcase : n = 0 ∨ n = 1 := by
      simp at hn
      omega
    rcases hcase with rfl | rfl
    · exact Or.inl (by decide)
    · exact Or.inl (by decide)
  exact (appends_keep_records { gtestParams with itemNumPerBlockLimit := 1 } [[7, 7], [5]]
    hclear).1 1 (by decide)

/-- The second block's entry goes to the byte where the first record starts. -/
theorem second_block_overwrites_first_record : ¬ AppendKeeps tinyParams [[7, 7]] [5] := by
  rintro ⟨o, o', hrun, happ, hsame⟩
  obtain ⟨q, q', hrun', happ', hc, hc'⟩ := appendItem_run tinyParams [[7, 7]] [5]
  rw [hrun] at hrun'
  cases hrun'
  rw [happ] at happ'
  cases happ'
  have hbyte := hsame (blockStartOffset tinyParams) le_rfl (by decide)
  rw [hc, hc'] at hbyte
  revert hbyte
  decide +kernel

end PrivacyComputing.BlockFile.Leading
