import PrivacyComputing.BlockFileLeading

/-! Reading back a block file with the leading table. The file ends with the last
record, so `next_item` meets the end of the file there; a refused attempt moves back
by the length word it has read. -/
namespace PrivacyComputing.BlockFile.Leading
open LittleEndian Calls FileStream

variable (P : Params)

section Layout

/-- Every table entry of the session lies in the table area. -/
lemma entryIndex_lt (items : List Bytes) (hmax : items.length ≤ P.blockNumLimit *
    P.itemNumPerBlockLimit) {n : ℕ} (hn : n < items.length) : entryIndex P n < P.blockNumLimit := by
  have hpos : 0 < P.itemNumPerBlockLimit := by
    rcases Nat.eq_zero_or_pos P.itemNumPerBlockLimit with h | h
    · rw [h] at hmax
      omega
    · exact h
  rw [entryIndex, Nat.max_eq_left hpos, Nat.div_lt_iff_lt_mul hpos]
  omega

theorem contentOf_length (items : List Bytes) (hne : items ≠ [])
    (hroom : ∀ n < items.length, entryIndex P n < P.blockNumLimit) :
    (contentOf P items).length = recordsEnd P items := by
  induction items using List.reverseRecOn with
  | nil => exact absurd rfl hne
  | append_singleton items b ih =>
    have hle : (contentOf P items).length ≤ recordsEnd P items := by
      by_cases h : items = []
      · subst h
        simp [contentOf, contentFrom]
      · rw [ih h fun n hn => hroom n (by rw [List.length_append]; omega)]
    have hlast := hroom items.length (by simp)
    have hentry := bytes_length (lastBlock P (items ++ [b]))
    have hheader := header_length P (items ++ [b])
    rw [contentOf_snoc, appended, length_patch, length_patch, length_patch, hentry, hheader,
      recordsEnd_snoc]
    simp only [recordsEnd, blockStartOffset, blockInfoSize] at hle hlast ⊢
    omega

theorem contentOf_header (items : List Bytes) (hne : items ≠ []) :
    (contentOf P items).take P.headerSize = (headerOf P items).bytes := by
  cases items using List.reverseRecOn with
  | nil => exact absurd rfl hne
  | append_singleton items b =>
    have hheader := header_length P (items ++ [b])
    rw [contentOf_snoc, appended, take_patch, ← hheader, take_patch_start]
    · rw [length_patch]
      omega
    · rw [recordsEnd, blockStartOffset]
      omega

theorem contentOf_records (items : List Bytes) (hne : items ≠ [])
    (hroom : ∀ n < items.length, entryIndex P n < P.blockNumLimit) :
    (contentOf P items).drop (blockStartOffset P) = records items := by
  have hlen := contentOf_length P items hne hroom
  have hstored := contentOf_recordsStored P items fun n hn => Or.inl (by
    rw [List.length_take, Nat.min_eq_left (by omega)]
    exact hroom n hn)
  apply List.ext_getElem?
  intro k
  rw [List.getElem?_drop]
  by_cases hk : k < (records items).length
  · exact hstored k hk
  · rw [List.getElem?_eq_none (by rw [hlen, recordsEnd]; omega),
      List.getElem?_eq_none (by omega)]

end Layout

section Open

lemma overlay_full (h : Header) (data : Bytes) (hlen : data.length = P.headerSize) :
    overlay P h data = Header.parse data := by
  rw [overlay, ← hlen, List.take_left]

theorem readHeader_of_disk (disk : Bytes) {o : FileObject} (p : ℕ)
    (h : o.mIsHeaderValid = false) (hf : o.mFile = readAt disk p)
    (hlen : P.headerSize ≤ disk.length)
    (hmagic : (Header.parse (disk.take P.headerSize)).magicNumber = P.magicNumber) :
    readHeader P o = .ok () { o with
      mHeader := Header.parse (disk.take P.headerSize)
      mIsHeaderValid := true } := by
  have hbeg : (readAt disk p).seekg 0 .beg = readAt disk 0 := seekg_readAt disk p 0
  have hread := read_readAt disk 0 P.headerSize (by omega)
  have hover := overlay_full P o.mHeader (disk.take P.headerSize) (by
    rw [List.length_take, Nat.min_eq_left hlen])
  rw [List.drop_zero, Nat.zero_add] at hread
  simp [readHeader, h, hf, tellg_readAt, hbeg, hread, hover, hmagic, seekg_readAt]

theorem readAllBlockInfo_of_disk (disk : Bytes) {o : FileObject} (p : ℕ)
    (hb : o.mIsBlockInfoValid = false) (hv : o.mIsHeaderValid = true)
    (hf : o.mFile = readAt disk p)
    (hlen : P.headerSize + o.mHeader.blockNumber * blockInfoSize ≤ disk.length) :
    ∃ blocks q, readAllBlockInfo P o = .ok () { o with
      mFile := readAt disk q
      mIsBlockInfoValid := true
      mBlockInfos := blocks } := by
  obtain ⟨blocks, hrun⟩ := readBlocks_run disk o.mHeader.blockNumber
    (o := { o with mFile := readAt disk P.headerSize }) P.headerSize rfl hlen
  refine ⟨blocks, P.headerSize + o.mHeader.blockNumber * blockInfoSize, ?_⟩
  rw [readAllBlockInfo, bind_ok (readHeader_of_valid P hv), get_bind, hb]
  simp only [Bool.false_eq_true, if_false, onFile_bind, get_bind, hf, seekg_readAt]
  rw [bind_ok hrun]
  simp

/-- Opening a file with a full header and a full table succeeds, at the first record. -/
theorem openForRead_of_disk (disk : Bytes) {o : FileObject} (hc : o.mFile.isOpen = false)
    (hv : o.mIsHeaderValid = false) (hb : o.mIsBlockInfoValid = false)
    (hmagic : (Header.parse (disk.take P.headerSize)).magicNumber = P.magicNumber)
    (hlen : P.headerSize + (Header.parse (disk.take P.headerSize)).blockNumber *
      blockInfoSize ≤ disk.length) :
    ∃ o', openForRead P (some disk) o = .ok () o' ∧
      o'.mFile = readAt disk (blockStartOffset P) ∧ o'.mIsHeaderValid = true ∧
      o'.mHeader = Header.parse (disk.take P.headerSize) := by
  have hhead := readHeader_of_disk P disk (o := { o with mFile := readAt disk 0 }) 0 hv rfl
    (by omega) hmagic
  obtain ⟨blocks, q, hinfo⟩ := readAllBlockInfo_of_disk P disk (o := { o with
    mFile := readAt disk 0
    mHeader := Header.parse (disk.take P.headerSize)
    mIsHeaderValid := true }) 0 hb rfl rfl hlen
  have hclear : (openIn disk).clear = readAt disk 0 := rfl
  simp only [openForRead, get_bind, hc, Bool.false_eq_true, if_false, onFile_bind, resetReadItem,
    hclear]
  rw [bind_ok hhead, bind_ok hinfo, onFile_apply]
  exact ⟨_, rfl, seekg_readAt disk q (blockStartOffset P), rfl, rfl⟩

end Open

section Items

/-- What a reader with `items` before it answers to a sequence of attempts: a null buffer and a
buffer that is too small are refused, and the item stays the next one. -/
def answers : List Bytes → List (Option ℕ) → List ItemResult
  | _, [] => []
  | [], _ :: bufs => .eof :: answers [] bufs
  | b :: items, none :: bufs => .invalidBuf :: answers (b :: items) bufs
  | b :: items, some inSize :: bufs =>
    if inSize < b.length then .smallBuf b.length :: answers (b :: items) bufs
    else item b :: answers items bufs

/-- Behind the last record the length word cannot be read. -/
theorem nextItem_end (disk : Bytes) (buf : Option ℕ) {o : FileObject}
    (hf : o.mFile = readAt disk disk.length) :
    ∃ o', nextItem buf o = .ok .eof o' ∧ o'.mFile.eofbit = true := by
  have heof : (readAt disk disk.length).eofbit = false := rfl
  have hread : (readAt disk disk.length).read 8 =
      ([], { readAt disk disk.length with eofbit := true, failbit := true }) := by
    simp [FileStream.read, readAt, good, fail, openIn]
  refine ⟨{ o with mFile := { readAt disk disk.length with eofbit := true, failbit := true } },
    ?_, rfl⟩
  simp [nextItem, hf, heof, hread]

lemma nextItem_eof (buf : Option ℕ) {o : FileObject} (h : o.mFile.eofbit = true) :
    nextItem buf o = .ok .eof o := by
  simp [nextItem, h]

def readItems : List (Option ℕ) → FileM (List ItemResult)
  | [] => pure []
  | buf :: bufs => do
    let r ← nextItem buf
    let rs ← readItems bufs
    return r :: rs

lemma readItems_eof (bufs : List (Option ℕ)) {o : FileObject} (h : o.mFile.eofbit = true) :
    readItems bufs o = .ok (answers [] bufs) o := by
  induction bufs with
  | nil => rfl
  | cons buf bufs ih =>
    rw [readItems, bind_ok (nextItem_eof buf h), bind_ok ih, pure_apply, answers]

/-- Along any sequence of attempts, from a position where the rest of the file is the records
of `items`. -/
theorem readItems_records (disk : Bytes) (bufs : List (Option ℕ)) (items : List Bytes) (p : ℕ)
    {o : FileObject} (hf : o.mFile = readAt disk p) (hp : p ≤ disk.length)
    (hd : disk.drop p = records items) (hlen : ∀ b ∈ items, b.length < 2 ^ 64) :
    ∃ o', readItems bufs o = .ok (answers items bufs) o' := by
  induction bufs generalizing items p o with
  | nil => exact ⟨o, by cases items <;> rfl⟩
  | cons buf bufs ih =>
    cases items with
    | nil =>
      have hend : p = disk.length := by
        have := congrArg List.length hd
        simp [records] at this
        omega
      obtain ⟨o₁, hfirst, heof⟩ := nextItem_end disk buf (hend ▸ hf)
      exact ⟨o₁, by rw [readItems, bind_ok hfirst, bind_ok (readItems_eof bufs heof), pure_apply,
        answers]⟩
    | cons b items =>
      have hb := hlen b (by simp)
      have hd' : disk.drop p = record b ++ records items := hd
      obtain ⟨hnull, hsmall⟩ := nextItem_refused disk _ b p hf hd' hb
      obtain ⟨o', hagain⟩ := ih (b :: items) p hf hp hd hlen
      cases buf with
      | none =>
        exact ⟨o', by rw [readItems, bind_ok hnull, bind_ok hagain, pure_apply, answers]⟩
      | some inSize =>
        by_cases hfit : inSize < b.length
        · exact ⟨o', by rw [readItems, bind_ok (hsmall inSize hfit), bind_ok hagain, pure_apply,
            answers, if_pos hfit]⟩
        · have htaken := nextItem_record disk _ b p inSize hf hd' hb (by omega)
          have hsize := congrArg List.length hd'
          rw [List.length_drop, List.length_append] at hsize
          have hnext : disk.drop (p + (record b).length) = records items := by
            rw [← List.drop_drop, hd', List.drop_left]
          obtain ⟨o₂, hrest⟩ := ih items (p + (record b).length)
            (o := { o with mFile := readAt disk (p + (record b).length) }) rfl
            (by rw [record_length] at hsize ⊢; omega) hnext fun c hc => hlen c (by simp [hc])
          exact ⟨o₂, by rw [readItems, bind_ok htaken, bind_ok hrest, pure_apply, answers,
            if_neg hfit]⟩

end Items

section RoundTrip

def writeSession (items : List Bytes) : FileM Unit := do
  openForWrite
  appendItems P items
  close

/-- A read session: the item number, and the attempts of `next_item`. -/
def readSession (disk : Bytes) (bufs : List (Option ℕ)) : FileM (ℕ × List ItemResult) := do
  openForRead P (some disk)
  let n ← itemNumber P
  let rs ← readItems bufs
  return (n, rs)

lemma itemNumber_of_valid {o : FileObject} (h : o.mIsHeaderValid = true) :
    itemNumber P o = .ok o.mHeader.itemNumber o := by
  rw [itemNumber, bind_ok (readHeader_of_valid P h)]
  rfl

theorem writeSession_run (items : List Bytes) (hne : items ≠ []) :
    ∃ o, writeSession P items (newObject P) = .ok () o ∧ o.mFile.content = contentOf P items ∧
      o.mFile.isOpen = false ∧ o.mIsHeaderValid = false ∧ o.mIsBlockInfoValid = false := by
  obtain ⟨q, hq⟩ := appendItems_run P items hne
  have hopen : openForWrite (newObject P) = .ok () (opened P) := rfl
  rw [writeSession, bind_ok hopen, bind_ok hq, close, modify_apply]
  exact ⟨_, rfl, rfl, rfl, rfl, rfl⟩

/-- The header of the file counts the blocks and the items. -/
lemma headerOf_read (items : List Bytes) (hne : items ≠ [])
    (hmax : items.length ≤ P.blockNumLimit * P.itemNumPerBlockLimit)
    (hnum : items.length < 2 ^ 64) :
    Header.parse ((contentOf P items).take P.headerSize) = headerOf P items ∧
      (headerOf P items).blockNumber ≤ P.blockNumLimit := by
  have hblocks : (headerOf P items).blockNumber ≤ items.length ∧
      (headerOf P items).blockNumber ≤ P.blockNumLimit := by
    cases items using List.reverseRecOn with
    | nil => exact absurd rfl hne
    | append_singleton items b =>
      have hlast := entryIndex_lt P _ hmax (n := items.length) (by simp)
      have hself : entryIndex P items.length ≤ items.length := Nat.div_le_self _ _
      rw [headerOf_blockNumber, blocksOf_length, List.length_append, List.length_singleton]
      omega
  refine ⟨?_, hblocks.2⟩
  rw [contentOf_header P items hne]
  exact parse_bytes _ (by omega) hnum

theorem readSession_contentOf (items : List Bytes) (hne : items ≠ [])
    (hmax : items.length ≤ P.blockNumLimit * P.itemNumPerBlockLimit)
    (hlen : ∀ b ∈ items, b.length < 2 ^ 64) (hnum : items.length < 2 ^ 64)
    (bufs : List (Option ℕ)) {o : FileObject} (hc : o.mFile.isOpen = false)
    (hv : o.mIsHeaderValid = false) (hb : o.mIsBlockInfoValid = false) :
    ∃ o', readSession P (contentOf P items) bufs o = .ok (items.length, answers items bufs) o' := by
  have hroom : ∀ n < items.length, entryIndex P n < P.blockNumLimit := fun n hn =>
    entryIndex_lt P items hmax hn
  have hsize := contentOf_length P items hne hroom
  have hrecords := contentOf_records P items hne hroom
  obtain ⟨hheader, hblocks⟩ := headerOf_read P items hne hmax hnum
  have htable := Nat.mul_le_mul_right blockInfoSize hblocks
  obtain ⟨o₁, hopen, hfile, hvalid, hread⟩ := openForRead_of_disk P (contentOf P items) hc hv hb
    (by rw [hheader]; rfl)
    (by rw [hheader, hsize, recordsEnd, blockStartOffset, Nat.mul_comm blockInfoSize]; omega)
  have hnumber := itemNumber_of_valid P hvalid
  rw [hread, hheader] at hnumber
  obtain ⟨o', hitems⟩ := readItems_records (contentOf P items) bufs items (blockStartOffset P) hfile
    (by rw [hsize, recordsEnd]; omega) hrecords hlen
  refine ⟨o', ?_⟩
  rw [readSession, bind_ok hopen, bind_ok hnumber, bind_ok hitems, pure_apply]
  rfl

/-- The file that a write session on a new object leaves is read back item by item, on the same
object or on another new one, whatever attempts are refused in between. -/
theorem leading_file_reads_back (items : List Bytes) (hne : items ≠ [])
    (hmax : items.length ≤ P.blockNumLimit * P.itemNumPerBlockLimit)
    (hlen : ∀ b ∈ items, b.length < 2 ^ 64) (hnum : items.length < 2 ^ 64)
    (bufs : List (Option ℕ)) :
    ∃ o, writeSession P items (newObject P) = .ok () o ∧
      ∀ reader, reader = o ∨ reader = newObject P →
        ∃ o', readSession P o.mFile.content bufs reader =
          .ok (items.length, answers items bufs) o' := by
  obtain ⟨o, hwrite, hcontent, hc, hv, hb⟩ := writeSession_run P items hne
  refine ⟨o, hwrite, ?_⟩
  rw [hcontent]
  rintro reader (rfl | rfl)
  · exact readSession_contentOf P items hne hmax hlen hnum bufs hc hv hb
  · exact readSession_contentOf P items hne hmax hlen hnum bufs rfl rfl rfl

end RoundTrip

theorem leading_file_reads_back_two_items :
    ∃ o, writeSession gtestParams [[1, 2], []] (newObject gtestParams) = .ok () o ∧
      ∀ reader, reader = o ∨ reader = newObject gtestParams →
        ∃ o', readSession gtestParams o.mFile.content [none, some 1, some 2, some 0, none] reader =
          .ok (2, [.invalidBuf, .smallBuf 2, item [1, 2], item [], .eof]) o' :=
  leading_file_reads_back gtestParams [[1, 2], []] (by simp) (by decide) (by simp) (by simp)
    [none, some 1, some 2, some 0, none]

end PrivacyComputing.BlockFile.Leading
