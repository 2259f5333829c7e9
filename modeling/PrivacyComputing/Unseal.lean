import PrivacyComputing.DataFeed

/-! The tool that opens a sealed file again: `unseal_file`, which reads the number of items from
the header at the end of the file, takes that many cells through `simple_sealed_file`, and decrypts
and parses each of them. -/
namespace PrivacyComputing.Unseal
open BlockFile Calls DataFeed DataHub LittleEndian FileStream

/-- The exceptions that leave `unseal_file`. -/
inductive UnsealFailure
  | openFileFailed
  | readHeaderFailed
  | decryptBatchFailed
  | invalidPackage
  | file (f : Failure)
  deriving DecidableEq, Repr

abbrev UnsealM := EStateM UnsealFailure FileObject

def onSealedFile {α : Type} (m : FileM α) : UnsealM α := fun o =>
  match m o with
  | .ok a o => .ok a o
  | .error f o => .error (.file f) o

/-- The header as `unseal_file` reads it itself. -/
def readTrailer (disk : Bytes) : Except UnsealFailure Header :=
  let ifs := (openIn disk).seekg (-(sealedParams.headerSize : ℤ)) .fin
  let r := ifs.read sealedParams.headerSize
  if r.2.fail then .error .readHeaderFailed else .ok (Header.parse r.1)

section Unseal
variable (c : CryptoPack) (fmt : BatchFormat) (privateKey : Bytes)

/-- The loop over the items, with the buffer that all of them are read into. A cell that
`next_item` does not deliver is passed over. -/
def unsealLoop : (itemNumber : ℕ) → (buf : Bytes) → UnsealM (List (List Bytes))
  | 0, _ => pure []
  | itemNumber + 1, buf => do
    match ← onSealedFile (nextItem (some buf.length)) with
    | .succ len data =>
      let buf := data ++ buf.drop data.length
      let cipher := buf.take len
      match c.decryptMessageWithPrefix privateKey cipher cryptoPrefixArbitrary with
      | .ok batch =>
        match fmt.fromBytes batch with
        | none => throw .invalidPackage
        | some batchData =>
          let rest ← unsealLoop itemNumber buf
          return batchData :: rest
      | _ => throw .decryptBatchFailed
    | _ => unsealLoop itemNumber buf

/-- `disk` is the content of the sealed file, `fresh` the new buffer. The status is zero; the
batches are what the loop has in hand. -/
def unsealFile (disk : Option Bytes) (fresh : Bytes) : UnsealM (ℕ × List (List Bytes)) := do
  match disk with
  | none => throw .openFileFailed
  | some content =>
    match readTrailer content with
    | .error e => throw e
    | .ok header =>
      onSealedFile (openSealedFile (some content))
      let batches ← unsealLoop c fmt privateKey header.itemNumber fresh
      return (0, batches)

end Unseal

section Trailer

theorem onSealedFile_ok {α : Type} {m : FileM α} {a : α} {o o' : FileObject} (h : m o = .ok a o') :
    onSealedFile m o = .ok a o' := by
  unfold onSealedFile
  rw [h]

lemma header_itemNumber (cells : List Bytes) (h : cells.length < 2 ^ 64) :
    (Header.parse (headerOf sealedParams cells).bytes).itemNumber = cells.length := by
  have hw : word (headerOf sealedParams cells).bytes 3 = cells.length := by
    have hmagic : (encode 8 sealedParams.magicNumber.toNat).drop 24 = [] :=
      List.drop_eq_nil_of_le (by simp)
    have hversion : (encode 8 sealedParams.versionNumber.toNat).drop 16 = [] :=
      List.drop_eq_nil_of_le (by simp)
    have hdecode : decode (encode 8 cells.length) = cells.length := decode_encode_of_lt (by omega)
    conv_rhs => rw [← hdecode]
    simp [word, Header.bytes, headerOf, List.drop_append, hmagic, hversion]
  exact hw

theorem readTrailer_diskOf (cells : List Bytes) :
    readTrailer (diskOf sealedParams cells) =
      .ok (Header.parse (headerOf sealedParams cells).bytes) := by
  have hlen := diskOf_length sealedParams cells
  have hstart : (openIn (diskOf sealedParams cells)).seekg (-(sealedParams.headerSize : ℤ)) .fin =
      readAt (diskOf sealedParams cells)
        ((diskOf sealedParams cells).length - sealedParams.headerSize) :=
    seekg_readAt_end (diskOf sealedParams cells) 0 sealedParams.headerSize (by omega)
  have hread := read_readAt (diskOf sealedParams cells)
    ((diskOf sealedParams cells).length - sealedParams.headerSize) sealedParams.headerSize
    (by omega)
  have hheader : ((diskOf sealedParams cells).drop
      ((diskOf sealedParams cells).length - sealedParams.headerSize)).take sealedParams.headerSize =
      (headerOf sealedParams cells).bytes := by
    have hsize := header_length sealedParams cells
    have hbefore : (records cells ++
        tableBytes (blocksOf sealedParams.itemNumPerBlockLimit cells)).length =
        (diskOf sealedParams cells).length - sealedParams.headerSize := by
      have hparts : (diskOf sealedParams cells).length = (records cells ++
          tableBytes (blocksOf sealedParams.itemNumPerBlockLimit cells)).length +
          (headerOf sealedParams cells).bytes.length := List.length_append
      omega
    rw [← hbefore, diskOf, List.drop_left, ← hsize, List.take_length]
  rw [hheader] at hread
  unfold readTrailer
  simp only [hstart, hread]
  rfl

end Trailer

theorem openSealedFile_diskOf (cells : List Bytes) :
    ∃ sf : FileObject,
      openSealedFile (some (diskOf sealedParams cells)) (newObject sealedParams) = .ok () sf ∧
      sf.mFile = readAt (diskOf sealedParams cells) 0 := by
  obtain ⟨o, hopen, hf, hv, hb⟩ := openForRead_diskOf sealedParams cells
    (o := newObject sealedParams) rfl rfl rfl
  have hreset := resetReadItem_of_valid sealedParams hf hv hb
  refine ⟨{ o with mFile := readAt (diskOf sealedParams cells) 0 }, ?_, rfl⟩
  rw [openSealedFile, bind_ok hopen, hreset]

/-- No batch is empty, so there are at least as many items as cells. -/
lemma length_le_of_sealed (c : CryptoPack) (fmt : BatchFormat) (publicKey : Bytes)
    {cells : List Bytes} {batches : List (List Bytes)}
    (hsealed : List.Forall₂ (Seals c fmt publicKey) cells batches) :
    batches.length ≤ batches.flatten.length := by
  induction hsealed with
  | nil => simp
  | @cons cell batch cells batches hcell _ ih =>
    have hpos : 0 < batch.length := List.length_pos_of_ne_nil hcell.1.nonempty
    rw [List.flatten_cons, List.length_cons, List.length_append]
    omega

section RoundTrip
variable (c : CryptoPack) (fmt : BatchFormat) (skey publicKey : Bytes)
variable (hdec : ∀ r data cipher,
  c.encryptMessageWithPrefix r publicKey data cryptoPrefixArbitrary = .ok cipher →
  c.decryptMessageWithPrefix skey cipher cryptoPrefixArbitrary = .ok data)
include hdec

/-- The cells from the position on come out as their batches. -/
theorem unsealLoop_run {cells : List Bytes} {batches : List (List Bytes)}
    (hsealed : List.Forall₂ (Seals c fmt publicKey) cells batches) {disk rest : Bytes} {p : ℕ}
    {o : FileObject} (hf : o.mFile = readAt disk p) (hd : disk.drop p = records cells ++ rest)
    {buf : Bytes} (hbuf : buf.length = sealedParams.blockSizeLimit) :
    ∃ o', unsealLoop c fmt skey cells.length buf o = .ok batches o' := by
  induction hsealed generalizing p o buf with
  | nil => exact ⟨o, rfl⟩
  | @cons cell batch cells batches hcell _ ih =>
    have hsize := seals_size c fmt publicKey hcell
    have hlimit : sealedParams.blockSizeLimit < 2 ^ 32 := by decide
    have hrec : records (cell :: cells) = record cell ++ records cells := by simp [records]
    rw [hrec, List.append_assoc] at hd
    have hnext := nextItem_record disk _ cell p buf.length hf hd (by omega) (by omega)
    have hd' : disk.drop (p + (record cell).length) = records cells ++ rest := by
      rw [← List.drop_drop, hd, List.drop_left]
    have hbuf' : (cell ++ buf.drop cell.length).length = sealedParams.blockSizeLimit := by
      rw [List.length_append, List.length_drop]
      omega
    obtain ⟨o', hrest⟩ := ih (o := { o with mFile := readAt disk (p + (record cell).length) }) rfl
      hd' hbuf'
    obtain ⟨hb, r, hr⟩ := hcell
    have hopened := hdec r _ cell hr
    have hpackage := fmt.round_trip batch (by have hle := isBatch_size fmt hb; omega)
    refine ⟨o', ?_⟩
    rw [List.length_cons, unsealLoop, bind_ok (onSealedFile_ok hnext)]
    simp only [item, List.take_left, hopened, hpackage]
    rw [bind_ok hrest]
    rfl

end RoundTrip

end PrivacyComputing.Unseal
