import PrivacyComputing.DataHub

/-! The host side of a parser run, `add_data_source` and `parser::next_data_batch`
over `simple_sealed_file`, and the whole way of a data set from `seal_file` to the
items that `sealed_data_provider` hands to the algorithm. -/
namespace PrivacyComputing.DataFeed
open BlockFile DataHub DataProvider Runs Calls LittleEndian

/-- The constructor of `simple_sealed_file` for reading. -/
def openSealedFile (disk : Option Bytes) : FileM Unit := do
  openForRead sealedParams disk
  resetReadItem sealedParams

/-- The fields of `parser` that the ocall uses. -/
structure ParserHost where
  mDataSources : Bytes → Option FileObject
  mMemBuf : Bytes

/-- `unordered_map::insert` keeps an entry that is there. -/
def ParserHost.insert (h : ParserHost) (key : Bytes) (ssf : FileObject) : ParserHost :=
  { h with
    mDataSources := Function.update h.mDataSources key (some ((h.mDataSources key).getD ssf)) }

/-- One data source of the request: the file is opened, entered under its hash and owner key
and reset once more. -/
def ParserHost.addDataSource (h : ParserHost) (dataHash spkey : Bytes) (disk : Option Bytes) :
    Except Failure ParserHost :=
  match (do openSealedFile disk; resetReadItem sealedParams) (newObject sealedParams) with
  | .error f _ => .error f
  | .ok _ ssf => .ok (h.insert (dataHash ++ spkey) ssf)

/-- `next_item` reads into `m_mem_buf`; the enclave is given the first `out_size` bytes of it.
A reader in an undefined state counts as a failed ocall. -/
def nextDataBatch (key : Bytes) (h : ParserHost) : BatchAnswer × ParserHost :=
  match h.mDataSources key with
  | none => (.status .dataSourceNotFound, h)
  | some ssf =>
    match nextItem (some sealedParams.blockSizeLimit) ssf with
    | .error _ ssf =>
      (.ocallFails, { h with mDataSources := Function.update h.mDataSources key ssf })
    | .ok (.succ outSize data) ssf =>
      let buf := data ++ h.mMemBuf.drop data.length
      (if outSize ≠ 0 then .batch (buf.take outSize) else .status .sealedFileReachEnd,
        ⟨Function.update h.mDataSources key ssf, buf⟩)
    | .ok _ ssf => (.status .sealedFileReachEnd,
        { h with mDataSources := Function.update h.mDataSources key ssf })

/-- The source under `key` is a file with the given content, read up to where `todo` begins. -/
def ReadsFrom (h : ParserHost) (key disk todo : Bytes) : Prop :=
  ∃ ssf p, h.mDataSources key = some ssf ∧ ssf.mFile = readAt disk p ∧ disk.drop p = todo

/-- A sealed file is opened at its start. -/
theorem addDataSource_insert (h : ParserHost) (dataHash spkey : Bytes) (cells : List Bytes) :
    ∃ ssf : FileObject, h.addDataSource dataHash spkey (some (diskOf sealedParams cells)) =
        .ok (h.insert (dataHash ++ spkey) ssf) ∧
      ssf.mFile = readAt (diskOf sealedParams cells) 0 := by
  obtain ⟨o, hopen, hf, hv, hb⟩ := openForRead_diskOf sealedParams cells
    (o := newObject sealedParams) rfl rfl rfl
  let ssf : FileObject := { o with mFile := readAt (diskOf sealedParams cells) 0 }
  have hreset : resetReadItem sealedParams o = .ok () ssf :=
    resetReadItem_of_valid sealedParams hf hv hb
  have hreset' : resetReadItem sealedParams ssf = .ok () ssf :=
    resetReadItem_of_valid sealedParams rfl hv hb
  have hsealed : openSealedFile (some (diskOf sealedParams cells)) (newObject sealedParams) =
      .ok () ssf := by
    rw [openSealedFile, bind_ok hopen, hreset]
  refine ⟨ssf, ?_, rfl⟩
  rw [ParserHost.addDataSource, bind_ok hsealed, hreset']

theorem addDataSource_diskOf (h : ParserHost) (dataHash spkey : Bytes) (cells : List Bytes)
    (hfresh : h.mDataSources (dataHash ++ spkey) = none) :
    ∃ h', h.addDataSource dataHash spkey (some (diskOf sealedParams cells)) = .ok h' ∧
      ReadsFrom h' (dataHash ++ spkey) (diskOf sealedParams cells) (diskOf sealedParams cells) := by
  obtain ⟨ssf, hadd, hf⟩ := addDataSource_insert h dataHash spkey cells
  refine ⟨_, hadd, ssf, 0, ?_, hf, rfl⟩
  simp [ParserHost.insert, hfresh]

theorem nextDataBatch_record {h : ParserHost} {key disk cell rest : Bytes}
    (hr : ReadsFrom h key disk (record cell ++ rest))
    (hsize : cell.length ≤ sealedParams.blockSizeLimit) :
    ∃ h', nextDataBatch key h =
        (if cell.length ≠ 0 then .batch cell else .status .sealedFileReachEnd, h') ∧
      ReadsFrom h' key disk rest := by
  obtain ⟨ssf, p, hs, hf, hd⟩ := hr
  have hlimit : sealedParams.blockSizeLimit < 2 ^ 64 := by decide
  have hnext := nextItem_record disk rest cell p sealedParams.blockSizeLimit hf hd (by omega) hsize
  have hd' : disk.drop (p + (record cell).length) = rest := by
    rw [← List.drop_drop, hd, List.drop_left]
  let ssf' : FileObject := { ssf with mFile := readAt disk (p + (record cell).length) }
  refine ⟨⟨Function.update h.mDataSources key (some ssf'), cell ++ h.mMemBuf.drop cell.length⟩, ?_,
    ssf', p + (record cell).length, ?_, rfl, hd'⟩
  · rw [nextDataBatch, hs]
    simp only [hnext, item, List.take_left]
    rfl
  · simp

section Delivery
variable (c : CryptoPack) (fmt : BatchFormat) (skey publicKey : Bytes)
variable (hdec : ∀ r data cipher,
  c.encryptMessageWithPrefix r publicKey data cryptoPrefixArbitrary = .ok cipher →
  c.decryptMessageWithPrefix skey cipher cryptoPrefixArbitrary = .ok data)

/-- A provider in the middle of a sealed file: `shown` has been handed out, the cells that
hold `batches` are still to be read and the trailer follows them. -/
structure Reading (disk : Bytes) (s : Session ParserHost) (shown cells : List Bytes)
    (batches : List (List Bytes)) : Prop where
  kind : s.provider.kind = .sealed skey publicKey
  live : s.provider.mDataReachEnd = false
  exposed : s.exposed = shown.map some
  quiet : s.ended = false
  sealed : List.Forall₂ (Seals c fmt publicKey) cells batches
  file : ∃ rest, ReadsFrom s.host s.provider.batchKey disk (records (cells ++ [[]]) ++ rest)

/-- The items that are still to come. -/
def pending (s : Session ParserHost) (batches : List (List Bytes)) : List Bytes :=
  s.provider.remaining ++ batches.flatten

lemma process_more {p : Provider} {h : ParserHost} (live : p.mDataReachEnd = false)
    (more : p.mItemIndex + 1 < p.mItems.length) :
    p.process c fmt.fromBytes nextDataBatch h =
      (.advanced, { p with mItemIndex := p.mItemIndex + 1 }, h) := by
  simp [Provider.process, live, more]

lemma process_status {p : Provider} {h h' : ParserHost} {e : StxError}
    (live : p.mDataReachEnd = false) (spent : ¬ p.mItemIndex + 1 < p.mItems.length)
    (hnext : nextDataBatch p.batchKey h = (.status e, h')) :
    p.process c fmt.fromBytes nextDataBatch h =
      (.ended, { p with mDataReachEnd := true }, h') := by
  simp [Provider.process, live, spent, hnext]

lemma process_batch {p : Provider} {h h' : ParserHost} {cell msg b : Bytes} {bs : List Bytes}
    (live : p.mDataReachEnd = false) (spent : ¬ p.mItemIndex + 1 < p.mItems.length)
    (hnext : nextDataBatch p.batchKey h = (.batch cell, h'))
    (hopen : p.openBatch c cell = .ok msg) (hfrom : fmt.fromBytes msg = some (b :: bs)) :
    p.process c fmt.fromBytes nextDataBatch h =
      (.accepted (b :: bs), { p with
        mItems := b :: bs
        mActualDataHash := HashChain.extend c.hash256 p.mActualDataHash (b :: bs)
        mItemIndex := 0 }, h') := by
  simp [Provider.process, live, spent, hnext, hopen, Provider.takeBatch, hfrom]

lemma spent_of_remaining {p : Provider} (live : p.mDataReachEnd = false)
    (h : p.remaining = []) : ¬ p.mItemIndex + 1 < p.mItems.length := by
  simpa [Provider.remaining, live] using h

lemma more_of_remaining {p : Provider} {x : Bytes} {xs : List Bytes}
    (h : p.remaining = x :: xs) :
    p.mItemIndex + 1 < p.mItems.length := by
  by_contra hspent
  rw [remaining_of_spent (.inr (by omega))] at h
  cases h

abbrev deliver (s : Session ParserHost) : Session ParserHost :=
  s.step c fmt.fromBytes nextDataBatch .process

lemma deliver_eq {s : Session ParserHost} {out : Processed} {q : Provider} {host : ParserHost}
    (hproc : s.provider.process c fmt.fromBytes nextDataBatch s.host = (out, q, host)) :
    deliver c fmt s = {
      provider := q
      host := host
      received := s.received ++ out.items
      exposed := if out.isTrue then s.exposed ++ [q.outputValue] else s.exposed
      ended := s.ended || out == .ended } := by
  simp [deliver, Session.step, hproc]

lemma batchKey_of_kind {p : Provider} (h : p.kind = .sealed skey publicKey) :
    p.batchKey = p.mExpectDataHash ++ publicKey := by
  simp [Provider.batchKey, h]

theorem reading_more {disk : Bytes} {s : Session ParserHost} {shown cells xs : List Bytes}
    {x : Bytes} {batches : List (List Bytes)}
    (h : Reading c fmt skey publicKey disk s shown cells batches)
    (hrem : s.provider.remaining = x :: xs) :
    Reading c fmt skey publicKey disk (deliver c fmt s) (shown ++ [x]) cells batches ∧
      pending (deliver c fmt s) batches = xs ++ batches.flatten := by
  have more := more_of_remaining hrem
  have hx := remaining_of_more h.live more
  rw [hrem] at hx
  obtain ⟨hx, hxs⟩ := List.cons.inj hx
  rw [deliver_eq c fmt (process_more c fmt h.live more)]
  refine ⟨⟨h.kind, h.live, ?_, ?_, h.sealed, h.file⟩, ?_⟩
  · simp [Processed.isTrue, Provider.outputValue, h.exposed, hx, more]
  · simp [h.quiet]
  · rw [pending, hxs]

include hdec in
/-- The next cell of the file is accepted as the batch it was made from. -/
theorem reading_cell {disk : Bytes} {s : Session ParserHost} {shown cells : List Bytes}
    {cell b : Bytes} {bs : List Bytes} {batches : List (List Bytes)}
    (h : Reading c fmt skey publicKey disk s shown (cell :: cells) ((b :: bs) :: batches))
    (hrem : s.provider.remaining = []) :
    Reading c fmt skey publicKey disk (deliver c fmt s) (shown ++ [b]) cells batches ∧
      pending (deliver c fmt s) batches = bs ++ batches.flatten := by
  obtain ⟨rest, hfile⟩ := h.file
  obtain ⟨hseal, hsealed⟩ := List.forall₂_cons.mp h.sealed
  obtain ⟨hpos, hsize⟩ := seals_size c fmt publicKey hseal
  obtain ⟨hb, r, hr⟩ := hseal
  have hrecs : records (cell :: cells ++ [[]]) ++ rest =
      record cell ++ (records (cells ++ [[]]) ++ rest) := by simp [records]
  rw [hrecs] at hfile
  obtain ⟨host', hnext, hfile'⟩ := nextDataBatch_record hfile hsize
  rw [if_pos (by omega)] at hnext
  have hopen : s.provider.openBatch c cell = .ok (fmt.forPackage (b :: bs)) := by
    rw [Provider.openBatch, h.kind]
    exact hdec r _ cell hr
  have hfrom : fmt.fromBytes (fmt.forPackage (b :: bs)) = some (b :: bs) := by
    apply fmt.round_trip
    have hlimit : sealedParams.blockSizeLimit < 2 ^ 32 := by decide
    have := isBatch_size fmt hb
    omega
  rw [deliver_eq c fmt (process_batch c fmt h.live (spent_of_remaining h.live hrem) hnext hopen
    hfrom)]
  refine ⟨⟨h.kind, h.live, ?_, ?_, hsealed, rest, hfile'⟩, ?_⟩
  · simp [Processed.isTrue, Provider.outputValue, h.exposed]
  · simp [h.quiet]
  · simp [pending, Provider.remaining, h.live]

include hdec in
theorem reading_step {disk : Bytes} {s : Session ParserHost} {shown cells : List Bytes}
    {x : Bytes} {xs : List Bytes} {batches : List (List Bytes)}
    (h : Reading c fmt skey publicKey disk s shown cells batches)
    (hp : pending s batches = x :: xs) :
    ∃ cells' batches',
      Reading c fmt skey publicKey disk (deliver c fmt s) (shown ++ [x]) cells' batches' ∧
      pending (deliver c fmt s) batches' = xs := by
  cases hrem : s.provider.remaining with
  | cons y ys =>
    rw [pending, hrem, List.cons_append] at hp
    obtain ⟨rfl, rfl⟩ := List.cons.inj hp
    exact ⟨cells, batches, reading_more c fmt skey publicKey h hrem⟩
  | nil =>
    rw [pending, hrem, List.nil_append] at hp
    cases batches with
    | nil => cases hp
    | cons batch batches =>
      cases cells with
      | nil => cases h.sealed
      | cons cell cells =>
        have hne := (List.forall₂_cons.mp h.sealed).1.1.nonempty
        cases batch with
        | nil => exact absurd rfl hne
        | cons b bs =>
          rw [List.flatten_cons, List.cons_append] at hp
          obtain ⟨rfl, rfl⟩ := List.cons.inj hp
          exact ⟨cells, batches, reading_cell c fmt skey publicKey hdec h hrem⟩

/-- Behind the last cell the trailer reads as an empty item, which ends the data. -/
theorem reading_end {disk : Bytes} {s : Session ParserHost} {shown cells : List Bytes}
    {batches : List (List Bytes)} (h : Reading c fmt skey publicKey disk s shown cells batches)
    (hp : pending s batches = []) :
    (deliver c fmt s).ended = true ∧ (deliver c fmt s).exposed = shown.map some := by
  obtain ⟨hrem, hflat⟩ := List.append_eq_nil_iff.mp hp
  have hcells : cells = [] := by
    cases hb : batches with
    | nil =>
      have hsealed := h.sealed
      rw [hb] at hsealed
      cases hsealed
      rfl
    | cons batch batches =>
      have hsealed := h.sealed
      rw [hb] at hsealed hflat
      cases hsealed with
      | cons hcell _ => exact absurd (List.append_eq_nil_iff.mp hflat).1 hcell.1.nonempty
  obtain ⟨rest, hfile⟩ := h.file
  have hrecs : records (cells ++ [[]]) ++ rest = record [] ++ rest := by simp [hcells, records]
  rw [hrecs] at hfile
  obtain ⟨host', hnext, -⟩ := nextDataBatch_record hfile (by simp)
  rw [List.length_nil, if_neg (by simp)] at hnext
  rw [deliver_eq c fmt (process_status c fmt h.live (spent_of_remaining h.live hrem) hnext)]
  exact ⟨by simp, by simpa [Processed.isTrue] using h.exposed⟩

include hdec in
theorem reading_run {disk : Bytes} {s : Session ParserHost} {shown cells : List Bytes}
    {batches : List (List Bytes)} (h : Reading c fmt skey publicKey disk s shown cells batches)
    (k : ℕ) (hk : k ≤ (pending s batches).length) :
    ∃ cells' batches', Reading c fmt skey publicKey disk
        (run (Session.step c fmt.fromBytes nextDataBatch) s (List.replicate k .process))
        (shown ++ (pending s batches).take k) cells' batches' ∧
      pending (run (Session.step c fmt.fromBytes nextDataBatch) s (List.replicate k .process))
        batches' = (pending s batches).drop k := by
  induction k generalizing s shown cells batches with
  | zero => exact ⟨cells, batches, by simpa using h, by simp⟩
  | succ k ih =>
    cases hp : pending s batches with
    | nil => simp [hp] at hk
    | cons x xs =>
      obtain ⟨cells', batches', h', hp'⟩ := reading_step c fmt skey publicKey hdec h hp
      rw [hp, List.length_cons] at hk
      obtain ⟨cells'', batches'', h'', hp''⟩ := ih h' (by rw [hp']; omega)
      refine ⟨cells'', batches'', ?_, ?_⟩
      · rw [hp', List.append_assoc] at h''
        simpa [List.replicate_succ, run_cons] using h''
      · rw [hp'] at hp''
        simpa [List.replicate_succ, run_cons] using hp''

end Delivery

section EndToEnd
variable (c : CryptoPack) (fmt : BatchFormat) (rand : ℕ → Bytes) (skey publicKey : Bytes)

/-- What `process` called `k` times on a new provider gives, when the host serves the sealed
file. -/
def fed (host : ParserHost) (dataHash unset : Bytes) (memory k : ℕ) : Session ParserHost :=
  run (Session.step c fmt.fromBytes nextDataBatch)
    (Session.start (new c (sealedKind c skey unset) dataHash memory) host)
    (List.replicate k .process)

lemma sealed_cells_fit {cells : List Bytes} {batches : List (List Bytes)}
    (h : List.Forall₂ (Seals c fmt publicKey) cells batches) :
    ∀ cell ∈ cells, cell.length ≤ sealedParams.blockSizeLimit := by
  induction h with
  | nil => simp
  | cons hcell _ ih =>
    intro cell hmem
    obtain rfl | hmem := List.mem_cons.mp hmem
    · exact (seals_size c fmt publicKey hcell).2
    · exact ih cell hmem

/-- Once everything has been handed out and the data has ended, the provider has hashed
exactly what it handed out. -/
lemma fed_hash {host : ParserHost} {dataHash unset : Bytes} {memory k : ℕ} {items : List Bytes}
    (hexposed : (fed c fmt skey host dataHash unset memory k).exposed = items.map some)
    (hended : (fed c fmt skey host dataHash unset memory k).ended = true) :
    (fed c fmt skey host dataHash unset memory k).provider.dataHash =
      HashChain.chain c.hash256 fidelius items := by
  have hinv := inv_run c fmt.fromBytes nextDataBatch (sealedKind c skey unset) dataHash memory host
    (List.replicate k .process)
  change Session.Inv c dataHash (fed c fmt skey host dataHash unset memory k) at hinv
  obtain ⟨shown, hreceived, hshown⟩ := hinv.shown
  rw [hexposed] at hshown
  have heq : items = shown := List.map_injective_iff.mpr (Option.some_injective _) hshown
  rw [remaining_of_spent (.inl (hinv.reachedEnd hended)), List.append_nil] at hreceived
  rw [Provider.dataHash, hinv.hash, hreceived, heq]

lemma fed_succ (host : ParserHost) (dataHash unset : Bytes) (memory k : ℕ) :
    fed c fmt skey host dataHash unset memory (k + 1) =
      deliver c fmt (fed c fmt skey host dataHash unset memory k) := by
  rw [fed, fed, List.replicate_succ', run_append]
  rfl

/-- A new provider reads the sealed file from its first batch on. -/
lemma reading_start {cells : List Bytes} {batches : List (List Bytes)} {host : ParserHost}
    {dataHash : Bytes} (hkey : c.generatePkeyFromSkey skey = .ok publicKey) (hcells : cells ≠ [])
    (hsealed : List.Forall₂ (Seals c fmt publicKey) cells batches)
    (hreads : ReadsFrom host (dataHash ++ publicKey) (diskOf sealedParams cells)
      (diskOf sealedParams cells)) (unset : Bytes) (memory : ℕ) :
    Reading c fmt skey publicKey (diskOf sealedParams cells)
      (Session.start (new c (sealedKind c skey unset) dataHash memory) host) [] cells batches := by
  obtain ⟨rest, htrailer⟩ := diskOf_trailer sealedParams cells hcells
  have hkind : (new c (sealedKind c skey unset) dataHash memory).kind = .sealed skey publicKey := by
    simp [new, sealedKind, hkey]
  refine ⟨hkind, rfl, rfl, rfl, hsealed, rest, ?_⟩
  rw [← htrailer]
  have hbatchKey := batchKey_of_kind skey publicKey hkind
  change ReadsFrom host (new c (sealedKind c skey unset) dataHash memory).batchKey _ _
  rw [hbatchKey]
  exact hreads

/-- A data set sealed by `seal_file` and read through `next_data_batch` reaches the algorithm
as it was, item by item, and then ends; both sides have computed the same data hash, and
every sealed batch fits into the buffer of the reader. -/
theorem sealed_data_is_delivered (hkey : c.generatePkeyFromSkey skey = .ok publicKey)
    (henc : ∀ n data, ∃ cipher,
      c.encryptMessageWithPrefix (rand n) publicKey data cryptoPrefixArbitrary = .ok cipher)
    (hdec : ∀ r data cipher,
      c.encryptMessageWithPrefix r publicKey data cryptoPrefixArbitrary = .ok cipher →
      c.decryptMessageWithPrefix skey cipher cryptoPrefixArbitrary = .ok data)
    (items : List Bytes) (hne : items ≠ [])
    (hitems : ∀ b ∈ items, 0 < b.length ∧ b.length ≤ maxItemSize)
    (host : ParserHost) (hfresh : host.mDataSources
      (HashChain.chain c.hash256 fidelius items ++ publicKey) = none)
    (unset : Bytes) (memory : ℕ) :
    ∃ s dataHash cells host',
      sealFile c fmt rand publicKey items items.length ⟨newObject sealedParams, 0⟩ =
        .ok (0, dataHash) s ∧
      s.sf.mFile.content = diskOf sealedParams cells ∧
      (∀ cell ∈ cells, cell.length ≤ sealedParams.blockSizeLimit) ∧
      host.addDataSource dataHash publicKey (some s.sf.mFile.content) = .ok host' ∧
      (∀ k ≤ items.length,
        (fed c fmt skey host' dataHash unset memory k).exposed = (items.take k).map some ∧
        (fed c fmt skey host' dataHash unset memory k).ended = false) ∧
      (fed c fmt skey host' dataHash unset memory (items.length + 1)).exposed = items.map some ∧
      (fed c fmt skey host' dataHash unset memory (items.length + 1)).ended = true ∧
      (fed c fmt skey host' dataHash unset memory (items.length + 1)).provider.dataHash =
        dataHash := by
  obtain ⟨s, cells, batches, hseal, hsf, hsealed, hflat⟩ :=
    sealFile_run c fmt publicKey rand henc items hne hitems
  have hdisk : s.sf.mFile.content = diskOf sealedParams cells := by
    rw [hsf]
    rfl
  obtain ⟨host', hadd, hreads⟩ := addDataSource_diskOf host _ publicKey cells hfresh
  have hcells : cells ≠ [] := by
    intro hnil
    rw [hnil] at hsealed
    cases hsealed
    exact hne hflat.symm
  generalize hhash : HashChain.chain c.hash256 fidelius items = dataHash at *
  have hbegin := reading_start c fmt skey publicKey hkey hcells hsealed hreads unset memory
  have hpending : pending (Session.start (new c (sealedKind c skey unset) dataHash memory) host')
      batches = items := by
    simp [pending, Session.start, new, Provider.remaining, hflat]
  have hrun := reading_run c fmt skey publicKey hdec hbegin
  rw [hpending] at hrun
  obtain ⟨_, _, hall, hnone⟩ := hrun items.length le_rfl
  rw [List.drop_length] at hnone
  obtain ⟨hended, hexposed⟩ := reading_end c fmt skey publicKey hall hnone
  change (deliver c fmt (fed c fmt skey host' dataHash unset memory items.length)).ended = true
    at hended
  change (deliver c fmt (fed c fmt skey host' dataHash unset memory items.length)).exposed = _
    at hexposed
  rw [← fed_succ] at hended hexposed
  rw [List.nil_append, List.take_length] at hexposed
  refine ⟨s, dataHash, cells, host', hseal, hdisk, sealed_cells_fit c fmt publicKey hsealed,
    by rw [hdisk, hadd], ?_, hexposed, hended, ?_⟩
  · intro k hk
    obtain ⟨_, _, hread, -⟩ := hrun k hk
    have hexposed := hread.exposed
    rw [List.nil_append] at hexposed
    exact ⟨hexposed, hread.quiet⟩
  · rw [fed_hash c fmt skey hexposed hended, hhash]

end EndToEnd

/-- A count and then the items, each behind its length. -/
def countedRecords (batch : List Bytes) : Bytes := encode 8 batch.length ++ records batch

def readRecords : ℕ → Bytes → Option (List Bytes)
  | 0, _ => some []
  | n + 1, data =>
    let len := decode (data.take 8)
    if (data.drop 8).length < len then none
    else (readRecords n ((data.drop 8).drop len)).map ((data.drop 8).take len :: ·)

lemma length_le_records (batch : List Bytes) : batch.length ≤ (records batch).length := by
  induction batch with
  | nil => simp
  | cons b batch ih =>
    rw [records, List.flatMap_cons, List.length_append, record_length, ← records, List.length_cons]
    omega

lemma readRecords_records (batch : List Bytes) (h : (records batch).length < 2 ^ 32) :
    readRecords batch.length (records batch) = some batch := by
  induction batch with
  | nil => rfl
  | cons b batch ih =>
    have hrec : records (b :: batch) = encode 8 b.length ++ (b ++ records batch) := by
      simp [records, record]
    rw [hrec, List.length_append, List.length_append] at h
    have hdec : decode (encode 8 b.length) = b.length := decode_encode_of_lt (by omega)
    rw [hrec, List.length_cons, readRecords, List.take_left' (encode_length 8 _),
      List.drop_left' (encode_length 8 _), hdec]
    simp [ih (by omega)]

lemma countedRecords_length (batch : List Bytes) :
    (countedRecords batch).length = 8 + (batch.map fun b => b.length + 8).sum := by
  have hr : (records batch).length = (batch.map fun b => b.length + 8).sum := by
    rw [records, List.length_flatMap]
    simp
  rw [countedRecords, List.length_append, encode_length, hr]

lemma readRecords_countedRecords (batch : List Bytes) (h : (countedRecords batch).length < 2 ^ 32) :
    readRecords (decode ((countedRecords batch).take 8)) ((countedRecords batch).drop 8) =
      some batch := by
  rw [countedRecords, List.length_append, encode_length] at h
  have hle := length_le_records batch
  rw [countedRecords, List.take_left' (encode_length 8 _), List.drop_left' (encode_length 8 _),
    decode_encode_of_lt (by omega), readRecords_records batch (by omega)]

def wordFormat : BatchFormat where
  forPackage := countedRecords
  fromBytes data := readRecords (decode (data.take 8)) (data.drop 8)
  packageOverhead := 8
  itemOverhead := 8
  package_small := by decide
  item_small := by decide
  size := countedRecords_length
  round_trip := readRecords_countedRecords

theorem sealed_data_two_items :
    let skey := List.replicate 32 7
    ∃ s dataHash host',
      sealFile CryptoPack.plain wordFormat (fun _ => []) (skey ++ skey) [[1], [2, 3]] 2
        ⟨newObject sealedParams, 0⟩ = .ok (0, dataHash) s ∧
      (⟨fun _ => none, []⟩ : ParserHost).addDataSource dataHash (skey ++ skey)
        (some s.sf.mFile.content) = .ok host' ∧
      (fed CryptoPack.plain wordFormat skey host' dataHash [] 0 3).exposed =
        [some [1], some [2, 3]] := by
  intro skey
  obtain ⟨s, dataHash, _, host', hseal, -, -, hadd, -, hexposed, -⟩ :=
    sealed_data_is_delivered CryptoPack.plain wordFormat (fun _ => []) skey (skey ++ skey) rfl
      (fun _ _ => ⟨_, rfl⟩)
      (fun r data cipher => CryptoPack.plain_decrypt_encrypt (by decide) r data cipher _)
      [[1], [2, 3]] (by simp) (by simp [maxItemSize]) ⟨fun _ => none, []⟩ rfl [] 0
  exact ⟨s, dataHash, host', hseal, hadd, hexposed⟩

end PrivacyComputing.DataFeed
