import PrivacyComputing.BlockFileWrite

/-! Reading back a block file. `next_item` follows the length words from the start of
the file; nothing tells it where the records end and the block table begins. -/
namespace PrivacyComputing.BlockFile
open LittleEndian Calls FileStream

/-- A file opened for input and moved to a position. -/
def readAt (disk : Bytes) (p : ℕ) : FileStream := { openIn disk with pos := p }

lemma readAt_good (disk : Bytes) (p : ℕ) : (readAt disk p).good = true := rfl

lemma tellg_readAt (disk : Bytes) (p : ℕ) : (readAt disk p).tellg = ((p : ℤ), readAt disk p) :=
  tellg_of_good (readAt_good disk p)

lemma seekg_readAt (disk : Bytes) (p q : ℕ) :
    (readAt disk p).seekg q .beg = readAt disk q :=
  seekg_of_good (readAt_good disk p) _ _ rfl

lemma seekg_readAt_end (disk : Bytes) (p k : ℕ) (h : k ≤ disk.length) :
    (readAt disk p).seekg (-(k : ℤ)) .fin = readAt disk (disk.length - k) := by
  apply seekg_of_good (readAt_good disk p)
  have hc : (readAt disk p).content = disk := rfl
  simp only [target, hc]
  omega

lemma read_readAt (disk : Bytes) (p n : ℕ) (h : p + n ≤ disk.length) :
    (readAt disk p).read n = ((disk.drop p).take n, readAt disk (p + n)) := by
  have hsplit : (readAt disk p).content.drop (readAt disk p).pos =
      (disk.drop p).take n ++ (disk.drop p).drop n := (List.take_append_drop n _).symm
  have hn : ((disk.drop p).take n).length = n := by
    rw [List.length_take, List.length_drop]
    omega
  have hread := read_of_good (readAt_good disk p) rfl hsplit
  rw [hn] at hread
  exact hread

section Read
variable (P : Params)

lemma header_length (items : List Bytes) : (headerOf P items).bytes.length = P.headerSize := by
  simp [Header.bytes, headerOf, Params.headerSize]
  omega

lemma header_magic (items : List Bytes) :
    (Header.parse (headerOf P items).bytes).magicNumber = P.magicNumber := by
  have hw : word (headerOf P items).bytes 0 = P.magicNumber.toNat := by
    simp [word, Header.bytes, headerOf]
    exact decode_encode_of_lt P.magicNumber.toNat_lt
  simp [Header.parse, hw]

lemma header_blockNumber (items : List Bytes) :
    (Header.parse (headerOf P items).bytes).blockNumber ≤
      (blocksOf P.itemNumPerBlockLimit items).length := by
  have hw : word (headerOf P items).bytes 2 =
      (blocksOf P.itemNumPerBlockLimit items).length % 256 ^ 8 := by
    have hd : (encode 8 P.magicNumber.toNat).drop 16 = [] := List.drop_eq_nil_of_le (by simp)
    rw [← decode_encode]
    simp [word, Header.bytes, headerOf, List.drop_append, hd]
  change word (headerOf P items).bytes 2 ≤ _
  rw [hw]
  exact Nat.mod_le _ _

lemma diskOf_length (items : List Bytes) :
    (diskOf P items).length = (records items).length +
      (blocksOf P.itemNumPerBlockLimit items).length * blockInfoSize + P.headerSize := by
  have ht (blocks : List BlockInfo) : (tableBytes blocks).length = blocks.length * 32 := by
    induction blocks with
    | nil => rfl
    | cons b blocks ih =>
      have hb : b.bytes.length = 32 := by simp [BlockInfo.bytes]
      rw [tableBytes, List.flatMap_cons, List.length_append, hb, ← tableBytes, ih,
        List.length_cons]
      omega
  simp [diskOf, ht, header_length, blockInfoSize]
  omega

theorem readHeader_of_disk (items : List Bytes) {o : FileObject} (p : ℕ)
    (h : o.mIsHeaderValid = false) (hf : o.mFile = readAt (diskOf P items) p) :
    readHeader P o = .ok () { o with
      mHeader := Header.parse (headerOf P items).bytes
      mIsHeaderValid := true } := by
  have hlen := diskOf_length P items
  have hne : diskOf P items ≠ [] := by
    apply List.ne_nil_of_length_pos
    rw [hlen, Params.headerSize]
    omega
  have hend : (readAt (diskOf P items) p).seekg 0 .fin =
      readAt (diskOf P items) (diskOf P items).length := by
    have := seekg_readAt_end (diskOf P items) p 0 (Nat.zero_le _)
    simpa using this
  have hhead := seekg_readAt_end (diskOf P items) (diskOf P items).length P.headerSize
    (by omega)
  have hread := read_readAt (diskOf P items) ((diskOf P items).length - P.headerSize)
    P.headerSize (by omega)
  have hdata : ((diskOf P items).drop ((diskOf P items).length - P.headerSize)).take
      P.headerSize = (headerOf P items).bytes := by
    have hb : (diskOf P items).length - P.headerSize = (records items ++
        tableBytes (blocksOf P.itemNumPerBlockLimit items)).length := by
      rw [← header_length P items, diskOf, List.length_append]
      omega
    rw [hb, diskOf, List.drop_left, ← header_length P items, List.take_length]
  rw [hdata] at hread
  simp [readHeader, h, hf, tellg_readAt, hend, hne, hhead, hread, header_length, header_magic,
    seekg_readAt]

lemma readBlocks_run (disk : Bytes) (n : ℕ) {o : FileObject} (p : ℕ)
    (hf : o.mFile = readAt disk p) (h : p + n * blockInfoSize ≤ disk.length) :
    ∃ blocks, readBlocks n o = .ok () { o with
      mFile := readAt disk (p + n * blockInfoSize)
      mBlockInfos := blocks } := by
  induction n generalizing o p with
  | zero => exact ⟨o.mBlockInfos, by simp [readBlocks, ← hf]⟩
  | succ n ih =>
    have hread := read_readAt disk p blockInfoSize (by rw [Nat.succ_mul] at h; omega)
    obtain ⟨blocks, hrun⟩ := ih (o := { o with
        mFile := readAt disk (p + blockInfoSize)
        mBlockInfos := o.mBlockInfos ++ [BlockInfo.parse (CryptoPack.fit blockInfoSize
          ((disk.drop p).take blockInfoSize))] })
      (p + blockInfoSize) rfl (by rw [Nat.succ_mul] at h; omega)
    refine ⟨blocks, ?_⟩
    simp only [readBlocks, fromFile_bind, modify_bind, hf, hread, hrun]
    have hp : p + blockInfoSize + n * blockInfoSize = p + (n + 1) * blockInfoSize := by
      rw [Nat.succ_mul]
      omega
    rw [hp]

theorem readAllBlockInfo_of_disk (items : List Bytes) {o : FileObject} (p : ℕ)
    (hb : o.mIsBlockInfoValid = false) (hv : o.mIsHeaderValid = true)
    (hh : o.mHeader = Header.parse (headerOf P items).bytes)
    (hf : o.mFile = readAt (diskOf P items) p) :
    ∃ blocks, readAllBlockInfo P o = .ok () { o with
      mIsBlockInfoValid := true
      mBlockInfos := blocks } := by
  have hlen := diskOf_length P items
  have hn := header_blockNumber P items
  rw [← hh] at hn
  have hmul := Nat.mul_le_mul_right blockInfoSize hn
  have hseek := seekg_readAt_end (diskOf P items) p
    (P.headerSize + o.mHeader.blockNumber * blockInfoSize) (by omega)
  obtain ⟨blocks, hrun⟩ := readBlocks_run (diskOf P items) o.mHeader.blockNumber
    (o := { o with mFile := readAt (diskOf P items) ((diskOf P items).length -
      (P.headerSize + o.mHeader.blockNumber * blockInfoSize)) }) _ rfl (by omega)
  refine ⟨blocks, ?_⟩
  rw [readAllBlockInfo, bind_ok (readHeader_of_valid P hv), get_bind, hb]
  simp only [Bool.false_eq_true, if_false, fromFile_bind, onFile_bind, get_bind, hf, tellg_readAt,
    hseek]
  rw [bind_ok hrun]
  simp only [modify_bind, onFile_apply, seekg_readAt]

/-- Opening a file that a write session left succeeds, at the first record. -/
theorem openForRead_diskOf (items : List Bytes) {o : FileObject} (hc : o.mFile.isOpen = false)
    (hv : o.mIsHeaderValid = false) (hb : o.mIsBlockInfoValid = false) :
    ∃ o', openForRead P (some (diskOf P items)) o = .ok () o' ∧
      o'.mFile = readAt (diskOf P items) 0 ∧ o'.mIsHeaderValid = true ∧
      o'.mIsBlockInfoValid = true := by
  let o₁ : FileObject := { o with mFile := readAt (diskOf P items) 0 }
  have hhead : readHeader P o₁ = .ok () _ := readHeader_of_disk P items 0 hv rfl
  obtain ⟨blocks, hinfo⟩ := readAllBlockInfo_of_disk P items (o := { o₁ with
    mHeader := Header.parse (headerOf P items).bytes
    mIsHeaderValid := true }) 0 hb rfl rfl rfl
  refine ⟨{ o₁ with
    mHeader := Header.parse (headerOf P items).bytes
    mIsHeaderValid := true
    mIsBlockInfoValid := true
    mBlockInfos := blocks }, ?_, rfl, rfl, rfl⟩
  have hclear : (openIn (diskOf P items)).clear = readAt (diskOf P items) 0 := rfl
  have hbeg := seekg_readAt (diskOf P items) 0 0
  simp only [openForRead, get_bind, hc, Bool.false_eq_true, if_false, onFile_bind, resetReadItem,
    hclear]
  rw [bind_ok hhead, bind_ok hinfo, onFile_apply]
  exact congrArg (fun f => EStateM.Result.ok () { o₁ with
    mFile := f
    mHeader := Header.parse (headerOf P items).bytes
    mIsHeaderValid := true
    mIsBlockInfoValid := true
    mBlockInfos := blocks }) hbeg

lemma resetReadItem_of_valid {o : FileObject} {disk : Bytes} {p : ℕ} (hf : o.mFile = readAt disk p)
    (hv : o.mIsHeaderValid = true) (hb : o.mIsBlockInfoValid = true) :
    resetReadItem P o = .ok () { o with mFile := readAt disk 0 } := by
  have hclear : o.mFile.clear = readAt disk p := by
    rw [hf]
    rfl
  have hhead : readHeader P { o with mFile := readAt disk p } = .ok () _ :=
    readHeader_of_valid P hv
  have hinfo : readAllBlockInfo P { o with mFile := readAt disk p } = .ok () _ :=
    readAllBlockInfo_of_valid P hv hb
  simp only [resetReadItem, onFile_bind, hclear]
  rw [bind_ok hhead, bind_ok hinfo, onFile_apply]
  simp [← seekg_readAt disk p 0]

/-- A record as `next_item` hands it over. -/
def item (b : Bytes) : ItemResult := .succ b.length b

/-- Where a record stands, the length word is read first. -/
lemma read_lengthWord (disk rest b : Bytes) (p : ℕ) (hd : disk.drop p = record b ++ rest) :
    p + (b.length + 8 + rest.length) = disk.length ∧
      (readAt disk p).read 8 = (encode 8 b.length, readAt disk (p + 8)) := by
  have hsize := congrArg List.length hd
  rw [List.length_drop, List.length_append, record_length] at hsize
  have htake : (disk.drop p).take 8 = encode 8 b.length := by
    rw [hd, record, List.append_assoc]
    exact List.take_left' (encode_length 8 _)
  have hword := read_readAt disk p 8 (by omega)
  rw [htake] at hword
  exact ⟨by omega, hword⟩

/-- Where a record stands in the file, `next_item` returns it and moves behind it. -/
theorem nextItem_record (disk rest b : Bytes) (p inSize : ℕ) {o : FileObject}
    (hf : o.mFile = readAt disk p) (hd : disk.drop p = record b ++ rest)
    (hlen : b.length < 2 ^ 64) (hbuf : b.length ≤ inSize) :
    nextItem (some inSize) o = .ok (item b) { o with
      mFile := readAt disk (p + (record b).length) } := by
  obtain ⟨hsize, hword⟩ := read_lengthWord disk rest b p hd
  have hbody := read_readAt disk (p + 8) b.length (by omega)
  have hdrop : (disk.drop (p + 8)).take b.length = b := by
    rw [← List.drop_drop, hd, record, List.append_assoc, List.drop_left' (encode_length 8 _),
      List.take_left]
  have hdec : decode (encode 8 b.length) = b.length := decode_encode_of_lt (by omega)
  have heof : (readAt disk p).eofbit = false := rfl
  have heof' : (readAt disk (p + 8)).eofbit = false := rfl
  rw [hdrop] at hbody
  have hle : ¬ inSize < b.length := by omega
  have hp : p + 8 + b.length = p + (record b).length := by
    rw [record_length]
    omega
  rw [← hp]
  simp [nextItem, hf, heof, hword, heof', hdec, hle, hbody, item, -bind_pure_comp]

/-- Where a record stands, `next_item` refuses a buffer that cannot take it and moves back. -/
theorem nextItem_refused (disk rest b : Bytes) (p : ℕ) {o : FileObject}
    (hf : o.mFile = readAt disk p) (hd : disk.drop p = record b ++ rest)
    (hlen : b.length < 2 ^ 64) :
    nextItem none o = .ok .invalidBuf o ∧
      ∀ inSize < b.length, nextItem (some inSize) o = .ok (.smallBuf b.length) o := by
  obtain ⟨-, hword⟩ := read_lengthWord disk rest b p hd
  have hdec : decode (encode 8 b.length) = b.length := decode_encode_of_lt (by omega)
  have heof : (readAt disk p).eofbit = false := rfl
  have heof' : (readAt disk (p + 8)).eofbit = false := rfl
  have hback : (readAt disk (p + 8)).seekp (-8) .cur = readAt disk p := by
    apply seekp_of_good (readAt_good disk (p + 8))
    simp [target, readAt]
  have hsame : { o with mFile := readAt disk p } = o := by rw [← hf]
  constructor
  · simp [nextItem, hf, heof, hword, heof', hback, hsame, -bind_pure_comp]
  · intro inSize hsmall
    simp [nextItem, hf, heof, hword, heof', hdec, hsmall, hback, hsame, -bind_pure_comp]

def nextItems (inSize : ℕ) : ℕ → FileM (List ItemResult)
  | 0 => pure []
  | n + 1 => do
    let r ← nextItem (some inSize)
    let rs ← nextItems inSize n
    return r :: rs

theorem nextItems_records (disk rest : Bytes) (items : List Bytes) (inSize p : ℕ)
    {o : FileObject} (hf : o.mFile = readAt disk p) (hd : disk.drop p = records items ++ rest)
    (hlen : ∀ b ∈ items, b.length < 2 ^ 64) (hbuf : ∀ b ∈ items, b.length ≤ inSize) :
    nextItems inSize items.length o = .ok (items.map item) { o with
      mFile := readAt disk (p + (records items).length) } := by
  induction items generalizing o p with
  | nil => simp [nextItems, records, ← hf]
  | cons b items ih =>
    have hrec : records (b :: items) = record b ++ records items := by simp [records]
    rw [hrec, List.append_assoc] at hd
    have hb := nextItem_record disk _ b p inSize hf hd (hlen b (by simp)) (hbuf b (by simp))
    have hd' : disk.drop (p + (record b).length) = records items ++ rest := by
      rw [← List.drop_drop, hd, List.drop_left]
    have hrest := ih (o := { o with mFile := readAt disk (p + (record b).length) }) _ rfl hd'
      (fun c hc => hlen c (by simp [hc])) (fun c hc => hbuf c (by simp [hc]))
    rw [List.length_cons, nextItems, bind_ok hb, bind_ok hrest, pure_apply, hrec,
      List.length_append, Nat.add_assoc]
    rfl

/-- The block table begins with a zero word, which reads as an empty record. -/
theorem diskOf_trailer (items : List Bytes) (hne : items ≠ []) :
    ∃ rest, diskOf P items = records (items ++ [[]]) ++ rest := by
  obtain ⟨b, blocks, hblocks, hb⟩ := blocksOf_head P.itemNumPerBlockLimit items hne
  refine ⟨encode 8 b.endItemIndex ++ encode 8 b.startFilePos ++ encode 8 b.endFilePos ++
    tableBytes blocks ++ (headerOf P items).bytes, ?_⟩
  have hrec : record [] = encode 8 0 := by simp [record]
  rw [diskOf, hblocks, records_snoc, hrec, tableBytes, List.flatMap_cons, BlockInfo.bytes, hb,
    ← tableBytes]
  simp only [List.append_assoc]

/-- A write session, then a read session with `n` calls of `next_item`, on one object. -/
def writeThenRead (items : List Bytes) (inSize n : ℕ) : FileM (List ItemResult) := do
  openForWrite
  appendItems P items
  close
  let o ← get
  openForRead P (some o.mFile.content)
  nextItems inSize n

lemma openForWrite_new :
    openForWrite (newObject P) = .ok () { newObject P with mFile := openOut } := rfl

/-- After the items the reader takes the start of the block table for one more item. -/
theorem writeThenRead_trailer (items : List Bytes) (inSize : ℕ) (hne : items ≠ [])
    (hlen : ∀ b ∈ items, b.length < 2 ^ 64) (hbuf : ∀ b ∈ items, b.length ≤ inSize) :
    ∃ o, writeThenRead P items inSize (items.length + 1) (newObject P) =
      .ok (items.map item ++ [item []]) o := by
  obtain ⟨o, hopen, hfile, -, -⟩ :=
    openForRead_diskOf P items (o := closedObject P items) rfl rfl rfl
  obtain ⟨rest, hdisk⟩ := diskOf_trailer P items hne
  have hlen' : ∀ b ∈ items ++ [[]], b.length < 2 ^ 64 := by
    intro b hb
    obtain hb | hb := List.mem_append.mp hb
    · exact hlen b hb
    · simp [List.mem_singleton.mp hb]
  have hbuf' : ∀ b ∈ items ++ [[]], b.length ≤ inSize := by
    intro b hb
    obtain hb | hb := List.mem_append.mp hb
    · exact hbuf b hb
    · simp [List.mem_singleton.mp hb]
  have hread := nextItems_records (diskOf P items) rest (items ++ [[]]) inSize 0 hfile hdisk
    hlen' hbuf'
  have hcontent : (closedObject P items).mFile.content = diskOf P items := rfl
  rw [List.length_append, List.length_singleton] at hread
  refine ⟨{ o with mFile := readAt (diskOf P items) (0 + (records (items ++ [[]])).length) }, ?_⟩
  rw [writeThenRead, bind_ok (openForWrite_new P), bind_ok (appendItems_run P items hne),
    bind_ok (close_written P items hne), get_bind, hcontent, bind_ok hopen, hread,
    List.map_append, List.map_singleton]

/-- Every item in order exactly once, and `eof` from then on. -/
def RoundTrips (items : List Bytes) (inSize : ℕ) : Prop :=
  ∀ n, ∃ o, writeThenRead P items inSize (items.length + n) (newObject P) =
    .ok (items.map item ++ List.replicate n .eof) o

theorem read_back_never_ends (items : List Bytes) (inSize : ℕ)
    (hlen : ∀ b ∈ items, b.length < 2 ^ 64) (hbuf : ∀ b ∈ items, b.length ≤ inSize) :
    ¬ RoundTrips P items inSize := by
  intro hround
  by_cases hne : items = []
  · subst hne
    obtain ⟨o, ho⟩ := hround 0
    have hclose : writeThenRead P [] inSize 0 (newObject P) =
        .error .undefined { newObject P with mFile := openOut } := rfl
    rw [List.length_nil, hclose] at ho
    cases ho
  · obtain ⟨o, ho⟩ := hround 1
    obtain ⟨o', ho'⟩ := writeThenRead_trailer P items inSize hne hlen hbuf
    rw [ho'] at ho
    simp [item] at ho

end Read

def gtestParams : Params where
  magicNumber := 0x29384792
  versionNumber := 16
  blockNumLimit := 1024
  itemNumPerBlockLimit := 1024
  hashBytes := 32

theorem read_back_never_ends_two_items :
    (∀ b ∈ ([[1, 2], []] : List Bytes), b.length < 2 ^ 64) ∧
      ¬ RoundTrips { gtestParams with itemNumPerBlockLimit := 1 } [[1, 2], []] 2 :=
  ⟨by simp, read_back_never_ends _ _ _ (by simp) (by simp)⟩

/-- The item of the block file test, read with the buffer that test uses. -/
theorem one_item_then_no_eof :
    ¬ RoundTrips gtestParams [[49, 50, 51, 52, 53, 54]] gtestParams.blockSizeLimit := by
  intro hround
  obtain ⟨o, ho⟩ := hround 1
  obtain ⟨o', ho'⟩ := writeThenRead_trailer gtestParams [[49, 50, 51, 52, 53, 54]]
    gtestParams.blockSizeLimit (by simp) (by simp)
    (by simp [Params.blockSizeLimit, gtestParams, maxItemSize])
  rw [ho'] at ho
  simp [item] at ho

end PrivacyComputing.BlockFile
