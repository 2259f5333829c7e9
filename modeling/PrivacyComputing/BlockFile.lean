import PrivacyComputing.CryptoPack
import PrivacyComputing.FileStream
import PrivacyComputing.MemoryLayout

/-! `blockfile_impl_r`, the block file with a trailing block table and header that
sealed data files use. A method runs on the file object and may leave by one of
the listed failures; the object keeps what was done up to there. -/
namespace PrivacyComputing.BlockFile
open LittleEndian

/-- The template arguments. `hashBytes` is the size of the `data_hash` array of the header:
32 for `blockfile_header_v2`, 0 for `blockfile_header_v1`. -/
structure Params where
  magicNumber : UInt64
  versionNumber : UInt64
  blockNumLimit : ℕ
  itemNumPerBlockLimit : ℕ
  hashBytes : ℕ

def maxItemSize : ℕ := 64 * 1024

def Params.blockSizeLimit (P : Params) : ℕ := P.itemNumPerBlockLimit * maxItemSize

structure Header where
  magicNumber : UInt64
  versionNumber : UInt64
  blockNumber : ℕ
  itemNumber : ℕ
  dataHash : Bytes
  deriving DecidableEq, Repr

structure BlockInfo where
  startItemIndex : ℕ
  endItemIndex : ℕ
  startFilePos : ℕ
  endFilePos : ℕ
  deriving DecidableEq, Repr

def Params.headerSize (P : Params) : ℕ := 32 + P.hashBytes
def blockInfoSize : ℕ := 32

def Header.bytes (h : Header) : Bytes :=
  encode 8 h.magicNumber.toNat ++ encode 8 h.versionNumber.toNat ++ encode 8 h.blockNumber ++
    encode 8 h.itemNumber ++ h.dataHash

def word (data : Bytes) (i : ℕ) : ℕ := decode ((data.drop (8 * i)).take 8)

def Header.parse (data : Bytes) : Header :=
  ⟨.ofNat (word data 0), .ofNat (word data 1), word data 2, word data 3, data.drop 32⟩

def BlockInfo.bytes (b : BlockInfo) : Bytes :=
  encode 8 b.startItemIndex ++ encode 8 b.endItemIndex ++ encode 8 b.startFilePos ++
    encode 8 b.endFilePos

def BlockInfo.parse (data : Bytes) : BlockInfo :=
  ⟨word data 0, word data 1, word data 2, word data 3⟩

structure FileObject where
  mFile : FileStream
  mHeader : Header
  mIsHeaderValid : Bool
  mIsBlockInfoValid : Bool
  mBlockInfos : List BlockInfo
  deriving DecidableEq, Repr

/-- Exceptions of the methods; `undefined` is behaviour the language leaves undefined. -/
inductive Failure
  | alreadyOpen
  | fileOpenFailure
  | invalidBlockfile
  | undefined
  deriving DecidableEq, Repr

abbrev FileM := EStateM Failure FileObject

/-- The result codes of `next_item` with the out parameters they set; `data` is what was read
into the buffer, shorter than `outSize` when the file ends in the middle of a record. -/
inductive ItemResult
  | succ (outSize : ℕ) (data : Bytes)
  | eof
  | invalidBuf
  | smallBuf (outSize : ℕ)
  deriving DecidableEq, Repr

variable (P : Params)

def newObject : FileObject where
  mFile := .closed
  mHeader := ⟨0, 0, 0, 0, List.replicate P.hashBytes 0⟩
  mIsHeaderValid := false
  mIsBlockInfoValid := false
  mBlockInfos := []

def onFile (f : FileStream → FileStream) : FileM Unit :=
  modify fun o => { o with mFile := f o.mFile }

def fromFile {α : Type} (f : FileStream → α × FileStream) : FileM α :=
  modifyGet fun o => ((f o.mFile).1, { o with mFile := (f o.mFile).2 })

def readHeader : FileM Unit := do
  if (← get).mIsHeaderValid then return
  let prev ← fromFile FileStream.tellg
  onFile (·.seekg 0 .fin)
  let len ← fromFile FileStream.tellg
  if len = 0 then
    modify fun o => { o with mIsHeaderValid := true }
    onFile (·.seekg prev .beg)
    return
  onFile (·.seekg (-(P.headerSize : ℤ)) .fin)
  let data ← fromFile (·.read P.headerSize)
  if data.length = P.headerSize then
    modify fun o => { o with mHeader := Header.parse data }
  if (← get).mHeader.magicNumber ≠ P.magicNumber then throw .invalidBlockfile
  modify fun o => { o with mIsHeaderValid := true }
  onFile (·.seekg prev .beg)

/-- The loop of `read_all_block_info`; a short read leaves the rest of the entry zero. -/
def readBlocks : ℕ → FileM Unit
  | 0 => pure ()
  | n + 1 => do
    let data ← fromFile (·.read blockInfoSize)
    modify fun o => { o with
      mBlockInfos := o.mBlockInfos ++ [BlockInfo.parse (CryptoPack.fit blockInfoSize data)] }
    readBlocks n

def readAllBlockInfo : FileM Unit := do
  readHeader P
  if (← get).mIsBlockInfoValid then return
  let prev ← fromFile FileStream.tellg
  let n := (← get).mHeader.blockNumber
  onFile (·.seekg (-((P.headerSize + n * blockInfoSize : ℕ) : ℤ)) .fin)
  readBlocks n
  modify fun o => { o with mIsBlockInfoValid := true }
  onFile (·.seekg prev .beg)

def resetReadItem : FileM Unit := do
  onFile FileStream.clear
  readHeader P
  readAllBlockInfo P
  onFile (·.seekg 0 .beg)

/-- `disk` is the content of the file at the path, `none` when there is no such file. -/
def openForRead (disk : Option Bytes) : FileM Unit := do
  if (← get).mFile.isOpen then throw .alreadyOpen
  match disk with
  | none => throw .fileOpenFailure
  | some content =>
    onFile fun _ => .openIn content
    resetReadItem P

def openForWrite : FileM Unit := do
  if (← get).mFile.isOpen then throw .alreadyOpen
  onFile fun _ => .openOut

/-- The block table after an item of length `len` is added. -/
def pushItem (limit : ℕ) (blocks : List BlockInfo) (len : ℕ) : List BlockInfo :=
  match blocks.getLast? with
  | none => [⟨0, 1, 0, len + 8⟩]
  | some bi =>
    if bi.endItemIndex - bi.startItemIndex ≥ limit then
      blocks ++ [⟨bi.endItemIndex, bi.endItemIndex + 1, bi.endFilePos, bi.endFilePos + len + 8⟩]
    else
      blocks.dropLast ++ [{ bi with
        endItemIndex := bi.endItemIndex + 1
        endFilePos := bi.endFilePos + len + 8 }]

def endOfData (blocks : List BlockInfo) : ℕ := (blocks.getLast?.map (·.endFilePos)).getD 0

def appendItem (data : Bytes) : FileM Unit := do
  readHeader P
  readAllBlockInfo P
  onFile FileStream.clear
  modify fun o =>
    let blocks := pushItem P.itemNumPerBlockLimit o.mBlockInfos data.length
    { o with
      mHeader := { o.mHeader with
        itemNumber := o.mHeader.itemNumber + 1
        magicNumber := P.magicNumber
        versionNumber := P.versionNumber
        blockNumber := o.mHeader.blockNumber + (blocks.length - o.mBlockInfos.length) }
      mBlockInfos := blocks }
  let o ← get
  onFile (·.seekp (endOfData o.mBlockInfos - 8 - data.length) .beg)
  onFile (·.write (encode 8 data.length))
  onFile (·.write data)

/-- `buf` is the size of the caller's buffer, `none` for a null pointer. -/
def nextItem (buf : Option ℕ) : FileM ItemResult := do
  if (← get).mFile.eofbit then return .eof
  let lenWord ← fromFile (·.read 8)
  if (← get).mFile.eofbit then return .eof
  if lenWord.length < 8 then throw .undefined
  let len := decode lenWord
  match buf with
  | none =>
    onFile (·.seekp (-8) .cur)
    return .invalidBuf
  | some inSize =>
    if inSize < len then
      onFile (·.seekp (-8) .cur)
      return .smallBuf len
    let data ← fromFile (·.read len)
    return .succ len data

def itemNumber : FileM ℕ := do
  readHeader P
  return (← get).mHeader.itemNumber

/-- `close` takes the last block of the table whether there is one or not. -/
def close : FileM Unit := do
  let o ← get
  match o.mBlockInfos.getLast? with
  | none => throw .undefined
  | some back =>
    onFile (·.seekp back.endFilePos .beg)
    onFile fun s => o.mBlockInfos.foldl (fun s b => s.write b.bytes) s
    onFile (·.write o.mHeader.bytes)
    modify fun o => { o with
      mIsHeaderValid := false
      mIsBlockInfoValid := false
      mBlockInfos := []
      mFile := o.mFile.close }

end PrivacyComputing.BlockFile
