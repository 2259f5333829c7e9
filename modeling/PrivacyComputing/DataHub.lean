import PrivacyComputing.BlockFileRead
import PrivacyComputing.DataProvider
import Mathlib.Data.List.Forall2

/-! Sealing a data set, `write_batch` and `seal_file` of the data hub: items are
collected into batches, every batch is marshalled, encrypted for the owner's key
and appended to a block file, and the data hash is folded over the items. -/
namespace PrivacyComputing.DataHub
open BlockFile Calls

/-- `batch_data_pkg_t` through `make_bytes::for_package` and `make_package::from_bytes`. The
marshaller is a library outside the repository: it reads back what it wrote, and an item
costs a fixed small number of bytes. -/
structure BatchFormat where
  forPackage : List Bytes → Bytes
  fromBytes : Bytes → Option (List Bytes)
  packageOverhead : ℕ
  itemOverhead : ℕ
  package_small : packageOverhead ≤ 4096
  item_small : itemOverhead ≤ 128
  size : ∀ batch, (forPackage batch).length =
    packageOverhead + (batch.map fun b => b.length + itemOverhead).sum
  round_trip : ∀ batch, (forPackage batch).length < 2 ^ 32 →
    fromBytes (forPackage batch) = some batch

/-- `sealed_file_base::blockfile_t`. -/
def sealedParams : Params where
  magicNumber := 0x4788d13e7fefe21f
  versionNumber := 2
  blockNumLimit := 1024 * 1024
  itemNumPerBlockLimit := 256
  hashBytes := 32

/-- The sealed file under construction and the number of encryptions made for it. -/
structure SealState where
  sf : FileObject
  drawn : ℕ

/-- A failed encryption leaves the program by `exit(1)`. -/
inductive SealFailure
  | file (f : Failure)
  | exit
  deriving DecidableEq, Repr

abbrev SealM := EStateM SealFailure SealState

def onSealedFile (m : FileM Unit) : SealM Unit := fun s =>
  match m s.sf with
  | .ok a o => .ok a { s with sf := o }
  | .error f o => .error (.file f) { s with sf := o }

section Seal
variable (c : CryptoPack) (fmt : BatchFormat) (rand : ℕ → Bytes) (publicKey : Bytes)

def writeBatch (batch : List Bytes) : SealM Unit := do
  let s ← get
  match c.encryptMessageWithPrefix (rand s.drawn) publicKey (fmt.forPackage batch)
      cryptoPrefixArbitrary with
  | .error _ => throw .exit
  | .ok sealed =>
    modify fun s => { s with drawn := s.drawn + 1 }
    onSealedFile (appendItem sealedParams sealed)

/-- The lines after the loop. -/
def writeRest (batch : List Bytes) (dataHash : Bytes) : SealM (ℕ × Bytes) := do
  if batch ≠ [] then writeBatch c fmt rand publicKey batch
  return (0, dataHash)

/-- `read_item_data` on what the plugin still has; it returns no bytes at the end. -/
def readItemData (pending : List Bytes) : Bytes := pending.headD []

/-- The loop of `seal_file`; the head of `pending` is `item_data`, already read and found to
be of a supported size. Returns the status and the data hash. -/
def sealLoop (itemNumber : ℕ) (pending : List Bytes) (counter : UInt32) (batch : List Bytes)
    (batchSize : ℕ) (dataHash : Bytes) : SealM (ℕ × Bytes) :=
  match pending with
  | [] => writeRest c fmt rand publicKey batch dataHash
  | itemData :: pending =>
    if itemData ≠ [] ∧ counter.toNat < itemNumber then do
      let full := batchSize + itemData.length ≥ maxItemSize
      if full then writeBatch c fmt rand publicKey (batch ++ [itemData])
      let dataHash := c.hash256 (dataHash ++ itemData)
      if (readItemData pending).length > maxItemSize then return (1, dataHash)
      sealLoop itemNumber pending (counter + 1) (if full then [] else batch ++ [itemData])
        (if full then 0 else batchSize + itemData.length) dataHash
    else writeRest c fmt rand publicKey batch dataHash

/-- `items` is what the plugin delivers and `itemNumber` what it announces. The sealed file
is closed by the destructor of `sf`. -/
def sealFile (items : List Bytes) (itemNumber : ℕ) : SealM (ℕ × Bytes) := do
  onSealedFile openForWrite
  let dataHash := c.hash256 DataProvider.fidelius
  if (readItemData items).length > maxItemSize then
    onSealedFile close
    return (1, dataHash)
  let r ← sealLoop c fmt rand publicKey itemNumber items 0 [] 0 dataHash
  onSealedFile close
  return r

end Seal

lemma onSealedFile_ok {m : FileM Unit} {s : SealState} {o : FileObject}
    (h : m s.sf = .ok () o) : onSealedFile m s = .ok () { s with sf := o } := by
  simp [onSealedFile, h]

/-- The file object of a write session after the given cells. -/
def writing (cells : List Bytes) : FileObject :=
  if cells = [] then { newObject sealedParams with mFile := .openOut }
  else written sealedParams cells

lemma appendItem_writing (cells : List Bytes) (b : Bytes) :
    appendItem sealedParams b (writing cells) = .ok () (writing (cells ++ [b])) := by
  by_cases h : cells = []
  · subst h
    exact appendItem_first sealedParams b
  · simp only [writing, h, if_false, List.append_eq_nil_iff, List.cons_ne_nil, and_false]
    exact appendItem_next sealedParams cells b

/-- A batch that `seal_file` can form: not empty, without empty items, and below the size
limit before its last item. -/
structure IsBatch (batch : List Bytes) : Prop where
  nonempty : batch ≠ []
  items : ∀ b ∈ batch, 0 < b.length ∧ b.length ≤ maxItemSize
  before : (batch.dropLast.map List.length).sum < maxItemSize

lemma length_le_sum (batch : List Bytes) (h : ∀ b ∈ batch, 0 < b.length) :
    batch.length ≤ (batch.map List.length).sum := by
  induction batch with
  | nil => simp
  | cons b batch ih =>
    have hb := h b (by simp)
    have hrest := ih fun d hd => h d (by simp [hd])
    simp only [List.length_cons, List.map_cons, List.sum_cons]
    omega

lemma sum_overhead (batch : List Bytes) (k : ℕ) :
    (batch.map fun b => b.length + k).sum = (batch.map List.length).sum + batch.length * k := by
  induction batch with
  | nil => simp
  | cons b batch ih =>
    simp only [List.map_cons, List.sum_cons, ih, List.length_cons, Nat.succ_mul]
    omega

theorem isBatch_bounds {batch : List Bytes} (h : IsBatch batch) :
    batch.length ≤ maxItemSize ∧ (batch.map List.length).sum < 2 * maxItemSize := by
  have hsplit := List.dropLast_append_getLast h.nonempty
  have hlast := h.items _ (List.getLast_mem h.nonempty)
  have hle := length_le_sum batch.dropLast
    fun b hb => (h.items b (List.dropLast_subset batch hb)).1
  have hbefore := h.before
  have hsum : (batch.map List.length).sum =
      (batch.dropLast.map List.length).sum + (batch.getLast h.nonempty).length := by
    conv_lhs => rw [← hsplit]
    simp
  have hlen : batch.length = batch.dropLast.length + 1 := by
    conv_lhs => rw [← hsplit]
    simp
  constructor
  · omega
  · omega

/-- Every batch that can be formed fits into the buffer of the reader once it is sealed. -/
theorem isBatch_size (fmt : BatchFormat) {batch : List Bytes} (h : IsBatch batch) :
    (fmt.forPackage batch).length + cipherOverhead ≤ sealedParams.blockSizeLimit := by
  obtain ⟨hlen, hsum⟩ := isBatch_bounds h
  have hp := fmt.package_small
  have hmul := Nat.mul_le_mul hlen fmt.item_small
  rw [fmt.size, sum_overhead]
  simp only [Params.blockSizeLimit, sealedParams, maxItemSize, cipherOverhead, publicKeySize]
    at hlen hsum hmul ⊢
  omega

lemma readItemData_small {pending : List Bytes}
    (h : ∀ b ∈ pending, 0 < b.length ∧ b.length ≤ maxItemSize) :
    ¬ (readItemData pending).length > maxItemSize := by
  cases pending with
  | nil => simp [readItemData]
  | cons b pending => simpa [readItemData] using (h b (by simp)).2

section Sealed
variable (c : CryptoPack) (fmt : BatchFormat) (publicKey : Bytes)

/-- A cell of the sealed file holds a batch. -/
def Seals (cell : Bytes) (batch : List Bytes) : Prop :=
  IsBatch batch ∧ ∃ r, c.encryptMessageWithPrefix r publicKey (fmt.forPackage batch)
    cryptoPrefixArbitrary = .ok cell

theorem seals_size {cell : Bytes} {batch : List Bytes} (h : Seals c fmt publicKey cell batch) :
    0 < cell.length ∧ cell.length ≤ sealedParams.blockSizeLimit := by
  obtain ⟨hb, r, hr⟩ := h
  have hsize := isBatch_size fmt hb
  have hlimit : sealedParams.blockSizeLimit < 2 ^ 32 := by decide
  have hcell := c.cipher_size _ _ _ _ _ (by omega) hr
  have hpos : 0 < cipherOverhead := by decide
  omega

variable (rand : ℕ → Bytes)
variable (henc : ∀ n data, ∃ cipher,
  c.encryptMessageWithPrefix (rand n) publicKey data cryptoPrefixArbitrary = .ok cipher)
include henc

lemma writeBatch_run {batch cells : List Bytes} {s : SealState} (hb : IsBatch batch)
    (hs : s.sf = writing cells) :
    ∃ cell, writeBatch c fmt rand publicKey batch s =
        .ok () ⟨writing (cells ++ [cell]), s.drawn + 1⟩ ∧ Seals c fmt publicKey cell batch := by
  obtain ⟨cell, hcell⟩ := henc s.drawn (fmt.forPackage batch)
  refine ⟨cell, ?_, hb, rand s.drawn, hcell⟩
  have happ := appendItem_writing cells cell
  rw [← hs] at happ
  rw [writeBatch, get_bind, hcell]
  simp only [modify_bind]
  exact onSealedFile_ok happ

/-- The state of the loop: the cells written so far and the batch that is being filled. -/
structure Filling (s : SealState) (cells : List Bytes) (batches : List (List Bytes))
    (batch : List Bytes) : Prop where
  file : s.sf = writing cells
  sealed : List.Forall₂ (Seals c fmt publicKey) cells batches
  items : ∀ b ∈ batch, 0 < b.length ∧ b.length ≤ maxItemSize
  small : (batch.map List.length).sum < maxItemSize

omit henc in
lemma isBatch_rest {batch : List Bytes} (hne : batch ≠ [])
    (hitems : ∀ b ∈ batch, 0 < b.length ∧ b.length ≤ maxItemSize)
    (hsmall : (batch.map List.length).sum < maxItemSize) : IsBatch batch := by
  refine ⟨hne, hitems, ?_⟩
  have hsum : (batch.map List.length).sum =
      (batch.dropLast.map List.length).sum + (batch.getLast hne).length := by
    conv_lhs => rw [← List.dropLast_append_getLast hne]
    simp
  omega

lemma writeBatch_filling {s : SealState} {cells : List Bytes} {batches : List (List Bytes)}
    {batch full : List Bytes} (h : Filling c fmt publicKey s cells batches batch)
    (hb : IsBatch full) :
    ∃ s' cell, writeBatch c fmt rand publicKey full s = .ok () s' ∧
      Filling c fmt publicKey s' (cells ++ [cell]) (batches ++ [full]) [] := by
  obtain ⟨cell, hrun, hcell⟩ := writeBatch_run c fmt publicKey rand henc hb h.file
  refine ⟨_, cell, hrun, rfl, ?_, by simp, by simp [maxItemSize]⟩
  exact List.rel_append h.sealed (.cons hcell .nil)

lemma writeRest_filling {s : SealState} {cells : List Bytes} {batches : List (List Bytes)}
    {batch : List Bytes} (h : Filling c fmt publicKey s cells batches batch)
    (dataHash : Bytes) :
    ∃ s' cells' batches', writeRest c fmt rand publicKey batch dataHash s = .ok (0, dataHash) s' ∧
      Filling c fmt publicKey s' cells' batches' [] ∧
      batches'.flatten = batches.flatten ++ batch := by
  by_cases hne : batch = []
  · subst hne
    exact ⟨s, cells, batches, by simp [writeRest], h, by simp⟩
  · obtain ⟨s', cell, hrun, hs'⟩ := writeBatch_filling c fmt publicKey rand henc h
      (isBatch_rest hne h.items h.small)
    refine ⟨s', _, _, ?_, hs', by simp⟩
    rw [writeRest, if_pos hne, bind_ok hrun]
    rfl

/-- The 32-bit item counter never stops the loop early: it is at most the number of items
read, also after it has wrapped. -/
theorem sealLoop_run (itemNumber : ℕ) (pending : List Bytes) (counter : UInt32)
    {s : SealState} {cells : List Bytes} {batches : List (List Bytes)} {batch : List Bytes}
    (dataHash : Bytes) (h : Filling c fmt publicKey s cells batches batch)
    (hp : ∀ b ∈ pending, 0 < b.length ∧ b.length ≤ maxItemSize)
    (hc : counter.toNat + pending.length ≤ itemNumber) :
    ∃ s' cells' batches', sealLoop c fmt rand publicKey itemNumber pending counter batch
        (batch.map List.length).sum dataHash s =
        .ok (0, HashChain.extend c.hash256 dataHash pending) s' ∧
      Filling c fmt publicKey s' cells' batches' [] ∧
      batches'.flatten = batches.flatten ++ batch ++ pending := by
  induction pending generalizing counter s cells batches batch dataHash with
  | nil =>
    obtain ⟨s', cells', batches', hrun, hs', hflat⟩ :=
      writeRest_filling c fmt publicKey rand henc h dataHash
    refine ⟨s', cells', batches', ?_, hs', by simpa using hflat⟩
    rw [sealLoop, hrun]
    rfl
  | cons item pending ih =>
    have hitem := hp item (by simp)
    have hrest : ∀ b ∈ pending, 0 < b.length ∧ b.length ≤ maxItemSize :=
      fun b hb => hp b (by simp [hb])
    have hnext := readItemData_small hrest
    have hitems : ∀ b ∈ batch ++ [item], 0 < b.length ∧ b.length ≤ maxItemSize := by
      intro b hb
      obtain hb | hb := List.mem_append.mp hb
      · exact h.items b hb
      · rw [List.mem_singleton.mp hb]
        exact hitem
    have hsum : ((batch ++ [item]).map List.length).sum =
        (batch.map List.length).sum + item.length := by simp
    rw [List.length_cons] at hc
    have hcount : (counter + 1).toNat + pending.length ≤ itemNumber := by
      have : (counter + 1).toNat ≤ counter.toNat + 1 := by
        rw [UInt32.toNat_add]
        exact Nat.mod_le _ _
      omega
    have hgo : item ≠ [] ∧ counter.toNat < itemNumber := by
      refine ⟨List.ne_nil_of_length_pos hitem.1, by omega⟩
    by_cases hfull : (batch.map List.length).sum + item.length ≥ maxItemSize
    · have hb : IsBatch (batch ++ [item]) := by
        refine ⟨by simp, hitems, ?_⟩
        rw [List.dropLast_concat]
        exact h.small
      obtain ⟨s₁, cell, hwrite, hs₁⟩ := writeBatch_filling c fmt publicKey rand henc h hb
      obtain ⟨s', cells', batches', hrun, hs', hflat⟩ :=
        ih (counter + 1) (c.hash256 (dataHash ++ item)) hs₁ hrest hcount
      refine ⟨s', cells', batches', ?_, hs', by simpa using hflat⟩
      rw [sealLoop, if_pos hgo]
      simp only [hfull, if_true]
      rw [bind_ok hwrite, if_neg hnext]
      exact hrun
    · have hs₁ : Filling c fmt publicKey s cells batches (batch ++ [item]) :=
        ⟨h.file, h.sealed, hitems, by omega⟩
      obtain ⟨s', cells', batches', hrun, hs', hflat⟩ :=
        ih (counter + 1) (c.hash256 (dataHash ++ item)) hs₁ hrest hcount
      refine ⟨s', cells', batches', ?_, hs', by simpa using hflat⟩
      rw [sealLoop, if_pos hgo]
      simp only [hfull, if_false]
      rw [if_neg hnext, ← hsum]
      exact hrun

/-- `seal_file` on nonempty items of a supported size succeeds. The file it leaves holds the
items, cut into batches, and the data hash is the chain over them. -/
theorem sealFile_run (items : List Bytes) (hne : items ≠ [])
    (hitems : ∀ b ∈ items, 0 < b.length ∧ b.length ≤ maxItemSize) :
    ∃ s cells batches,
      sealFile c fmt rand publicKey items items.length ⟨newObject sealedParams, 0⟩ =
        .ok (0, HashChain.chain c.hash256 DataProvider.fidelius items) s ∧
      s.sf = closedObject sealedParams cells ∧
      List.Forall₂ (Seals c fmt publicKey) cells batches ∧ batches.flatten = items := by
  have hfirst : ¬ (readItemData items).length > maxItemSize := by
    cases items with
    | nil => exact absurd rfl hne
    | cons b items => simpa [readItemData] using (hitems b (by simp)).2
  have hopen : onSealedFile openForWrite ⟨newObject sealedParams, 0⟩ = .ok () ⟨writing [], 0⟩ :=
    rfl
  have hstart : Filling c fmt publicKey ⟨writing [], 0⟩ [] [] [] :=
    ⟨rfl, .nil, by simp, by simp [maxItemSize]⟩
  obtain ⟨s, cells, batches, hloop, hs, hflat⟩ := sealLoop_run c fmt publicKey rand henc
    items.length items 0 (c.hash256 DataProvider.fidelius) hstart hitems (by simp)
  rw [List.map_nil, List.sum_nil] at hloop
  have hcells : cells ≠ [] := by
    intro hnil
    have hsealed := hs.sealed
    rw [hnil] at hsealed
    cases hsealed
    exact hne (by simpa using hflat.symm)
  have hclose : close s.sf = .ok () (closedObject sealedParams cells) := by
    rw [hs.file, writing, if_neg hcells]
    exact close_written sealedParams cells hcells
  refine ⟨{ s with sf := closedObject sealedParams cells }, cells, batches, ?_, rfl, hs.sealed,
    by simpa using hflat⟩
  rw [sealFile, bind_ok hopen]
  simp only [hfirst, if_false]
  rw [bind_ok hloop, bind_ok (onSealedFile_ok hclose)]
  rfl

end Sealed
end PrivacyComputing.DataHub
