import Mathlib.Data.List.TakeWhile
import PrivacyComputing.AnalyzerMulti
import PrivacyComputing.DataFeed
import PrivacyComputing.KeyForwarding

/-! The data sources of a request on both sides: `parser::feed_datasource` on the host, the
providers that the enclave makes of its infos, and what the providers read when the host
serves their calls of `next_data_batch` in any order. -/
namespace PrivacyComputing.DataSources
open Analyzer BlockFile Calls DataFeed DataHub DataProvider KeyForwarding Runs

/-- One input of the request, without its tag. -/
structure InputData where
  inputDataUrl : String
  inputDataHash : Bytes
  shuInfo : ShuInfo
  deriving DecidableEq, Repr

/-- The key of the input in `m_data_sources`. -/
def InputData.sourceKey (item : InputData) : Bytes := item.inputDataHash ++ item.shuInfo.pkey

def InputData.dataInfo (item : InputData) : SealedDataInfo :=
  ⟨item.inputDataHash, item.shuInfo.pkey⟩

inductive FeedError
  | parserMissingInput
  | file (failure : Failure)
  | forward (error : StxError)
  | enclave (stop : Stop)
  | undefined
  deriving DecidableEq, Repr

/-- What the host works with: the files, the key manager's answers in the order of the calls,
the dian key of the request and the marshalling of the infos. -/
structure HostRun where
  disk : String → Option Bytes
  forwardPrivateKey : ℕ → (encrypted epkey ehash sig : Bytes) → Status
  dianPkey : Bytes
  sealedDataInfo : SealedDataInfo → Bytes
  multiSealedDataInfo : List SealedDataInfo → Bytes

section Host
variable (R : HostRun)

def feedInput (n : ℕ) (item : InputData) (h : ParserHost) : Except FeedError ParserHost :=
  match h.addDataSource item.inputDataHash item.shuInfo.pkey (R.disk item.inputDataUrl) with
  | .error failure => .error (.file failure)
  | .ok h' =>
    match R.forwardPrivateKey n item.shuInfo.encryptedShuSkey R.dianPkey item.shuInfo.enclaveHash
        item.shuInfo.shuForwardSignature with
    | .error error => .error (.forward error)
    | .ok () => .ok h'

/-- The loop over the inputs. -/
def feedInputs : ℕ → List InputData → ParserHost → Except FeedError ParserHost
  | _, [], h => .ok h
  | n, item :: items, h =>
    match feedInput R n item h with
    | .error error => .error error
    | .ok h' => feedInputs (n + 1) items h'

def dataInfoBytes (session : DataSession) (allDataInfo : List SealedDataInfo) :
    Except FeedError Bytes :=
  match session, allDataInfo with
  | .sealedDataStream, [] => .error .parserMissingInput
  | .sealedDataStream, info :: _ => .ok (R.sealedDataInfo info)
  | .multiDataStream, infos => .ok (R.multiSealedDataInfo infos)
  | .rawDataStream, [] => .error .undefined
  | .rawDataStream, info :: _ => .ok info.dataHash
  | .noinputDataStream, _ => .ok []

/-- The type of the data source is the one that the enclave reports. -/
def feedDatasource (W : AlgoWrapper) (inputs : List InputData) (h : ParserHost) (e : Enclave) :
    Except FeedError (ParserHost × Enclave) :=
  if W.dataSession = .noinputDataStream then .ok (h, e)
  else if (W.dataSession = .sealedDataStream ∨ W.dataSession = .multiDataStream) ∧ inputs = [] then
    .error .parserMissingInput
  else
    match feedInputs R 0 inputs h with
    | .error error => .error error
    | .ok h' =>
      match dataInfoBytes R W.dataSession (inputs.map InputData.dataInfo) with
      | .error error => .error error
      | .ok bytes =>
        match W.initDataSource bytes e with
        | .error stop _ => .error (.enclave stop)
        | .ok () e' => .ok (h', e')

end Host

/-- A provider and what its calls of `next_data_batch` have brought so far. -/
structure Reader where
  batchKey : Bytes
  received : List Bytes
  calls : ℕ
  mDataReachEnd : Bool
  deriving DecidableEq, Repr

def Reader.new (p : Provider) : Reader := ⟨p.batchKey, [], 0, false⟩

def Reader.receive (r : Reader) : BatchAnswer → Reader
  | .batch data => { r with received := r.received ++ [data], calls := r.calls + 1 }
  | .status _ | .ocallFails => { r with calls := r.calls + 1, mDataReachEnd := true }

/-- The host with its cursors and the providers of the enclave. -/
structure Feeding where
  host : ParserHost
  readers : List Reader

def Feeding.start (h : ParserHost) (e : Enclave) : Feeding := ⟨h, e.datasources.map Reader.new⟩

/-- The provider at place `i` calls, unless it has been told the end. -/
def Feeding.step (s : Feeding) (i : ℕ) : Feeding :=
  match s.readers[i]? with
  | none => s
  | some r =>
    if r.mDataReachEnd then s
    else
      let answer := nextDataBatch r.batchKey s.host
      ⟨answer.2, s.readers.set i (r.receive answer.1)⟩

/-- The inputs that get a provider. -/
def initialised (session : DataSession) (inputs : List InputData) : List InputData :=
  match session with
  | .sealedDataStream | .rawDataStream => inputs.take 1
  | .multiDataStream => inputs
  | .noinputDataStream => []

/-- What the provider of an input asks for. -/
def askedKey (session : DataSession) (item : InputData) : Bytes :=
  match session with
  | .rawDataStream => item.inputDataHash
  | _ => item.sourceKey

section Enclave
variable {W : AlgoWrapper}

/-- The data sources of the enclave. -/
structure SourcesAre (sources : List Source) (e : Enclave) : Prop where
  sources : e.sources e.mDatasource = sources
  bound : ∀ id ∈ e.mDatasource, id < e.providers.length

def infoSource (sdi : SealedDataInfo) : Source :=
  ⟨if sdi.pkey.length ≠ 0 then some sdi.pkey else none, sdi.dataHash⟩

theorem sourcesFrame (W : AlgoWrapper) (sources : List Source) :
    W.Frame (SourcesAre sources) (fun _ => True) where
  fails _ _ := trivial
  request _ := AlgoWrapper.guards_of_keymgr (fun _ _ => trivial)
    (fun _ _ he => ⟨he.sources, he.bound⟩) _
  verified _ _ _ _ he := ⟨he.sources, he.bound⟩
  processed e id p p' n hp hsource he := by
    refine ⟨(sources_putProvider hp hsource n _).trans he.sources, ?_⟩
    intro i hi
    have hlen : (e.putProvider id p' n).providers.length = e.providers.length := by
      simp [Enclave.putProvider]
    rw [hlen]
    exact he.bound i hi
  results _ _ _ he := ⟨he.sources, he.bound⟩

lemma SourcesAre.push {sources : List Source} {e : Enclave} (h : SourcesAre sources e)
    (p : Provider) (used : List Bytes) :
    SourcesAre (sources ++ [providerSource p])
      { e.pushDatasource p with mDsUsePkey := used } := by
  constructor
  · change (e.pushDatasource p).sources (e.pushDatasource p).mDatasource = _
    rw [sources_pushDatasource h.bound, h.sources]
  · intro id hid
    change id < (e.providers ++ [p]).length
    rw [List.length_append, List.length_singleton]
    rcases List.mem_append.mp hid with hid | hid
    · have := h.bound id hid
      omega
    · rw [List.mem_singleton.mp hid]
      omega

theorem pushSource_sources (sources : List Source) (sdi : SealedDataInfo) :
    Contract (SourcesAre sources) (W.pushSource sdi)
      (fun _ => SourcesAre (sources ++ [infoSource sdi])) (fun _ _ => True) := by
  unfold AlgoWrapper.pushSource
  split_ifs with hpkey
  · refine .bind ((sourcesFrame W sources).requestKey_granted sdi.pkey) fun keys => .of_modify ?_
    rintro e ⟨he, hkeys, -⟩
    have hsource :
        providerSource (W.sealedDataProvider e sdi.dataHash keys.1) = infoSource sdi := by
      simp [AlgoWrapper.sealedDataProvider, DataProvider.new, sealedKind, hkeys, providerSource,
        infoSource, hpkey]
    rw [← hsource]
    exact he.push _ _
  · refine .of_modify fun e he => ?_
    have hsource : providerSource (W.rawDataProvider e sdi.dataHash) = infoSource sdi := by
      simp [AlgoWrapper.rawDataProvider, DataProvider.new, providerSource, infoSource, hpkey]
    rw [← hsource]
    exact he.push _ _

theorem pushSources_sources (sources : List Source) (infos : List SealedDataInfo) :
    Contract (SourcesAre sources) (W.pushSources infos)
      (fun _ => SourcesAre (sources ++ infos.map infoSource)) (fun _ _ => True) := by
  induction infos generalizing sources with
  | nil =>
    refine .of_pure fun e he => ?_
    simpa using he
  | cons sdi infos ih =>
    refine .bind (pushSource_sources sources sdi) fun _ => ?_
    simpa using ih (sources ++ [infoSource sdi])

/-- The infos that the host sends are read by the enclave as they are. -/
structure Marshals (W : AlgoWrapper) (R : HostRun) (inputs : List InputData) : Prop where
  single : ∀ item ∈ inputs, W.packages.sealedDataInfo (R.sealedDataInfo item.dataInfo) =
    some item.dataInfo
  multi : W.packages.multiSealedDataInfo (R.multiSealedDataInfo
    (inputs.map InputData.dataInfo)) = some (inputs.map InputData.dataInfo)

def Source.batchKey (source : Source) : Bytes := source.dataHash ++ source.owner.getD []

lemma batchKey_source (p : Provider) : p.batchKey = Source.batchKey (providerSource p) := by
  unfold Provider.batchKey Source.batchKey providerSource
  cases p.kind <;> simp

lemma batchKey_infoSource (item : InputData) :
    Source.batchKey (infoSource item.dataInfo) = item.sourceKey := by
  unfold Source.batchKey infoSource InputData.sourceKey InputData.dataInfo
  by_cases hpkey : item.shuInfo.pkey.length = 0
  · simp [List.length_eq_zero_iff.mp hpkey]
  · simp [hpkey]

lemma start_readers {sources : List Source} {e : Enclave} (h : SourcesAre sources e)
    (host : ParserHost) :
    (Feeding.start host e).readers = (sources.map Source.batchKey).map (⟨·, [], 0, false⟩) := by
  rw [← h.sources, Enclave.sources, ← Enclave.datasources, List.map_map, List.map_map]
  apply List.map_congr_left
  intro p _
  simp [Reader.new, batchKey_source]

lemma resetDatasource_sources (e : Enclave) (p : Provider) (used : List Bytes) :
    SourcesAre [providerSource p] { e.resetDatasource p with mDsUsePkey := used } := by
  constructor
  · simp [Enclave.sources, Enclave.resetDatasource]
  · simp [Enclave.resetDatasource]

theorem initSealedDataSource_sources (pkg : SealedDataInfo) :
    Contract (SourcesAre []) (W.initSealedDataSource pkg)
      (fun _ => SourcesAre [⟨some pkg.pkey, pkg.dataHash⟩]) (fun _ _ => True) := by
  have F := sourcesFrame W []
  refine .bind (AlgoWrapper.guards_of_keymgr F.fails
    (fun _ _ he => ⟨he.sources, he.bound⟩) _) fun _ => ?_
  refine .bind (F.requestKey_granted pkg.pkey) fun keys => .of_modify ?_
  rintro e ⟨-, hkeys, -⟩
  have hsource : providerSource (W.sealedDataProvider e pkg.dataHash keys.1) =
      ⟨some pkg.pkey, pkg.dataHash⟩ := by
    simp [AlgoWrapper.sealedDataProvider, DataProvider.new, sealedKind, hkeys, providerSource]
  rw [← hsource]
  exact resetDatasource_sources _ _ _

theorem initMultiDataSource_sources (infos : List SealedDataInfo) :
    Contract (SourcesAre []) (W.initMultiDataSource infos)
      (fun _ => SourcesAre (infos.map infoSource)) (fun _ _ => True) :=
  .bind (AlgoWrapper.guards_of_keymgr (sourcesFrame W []).fails
    (fun _ _ he => ⟨he.sources, he.bound⟩) _) fun _ => pushSources_sources [] infos

lemma start_sources (W : AlgoWrapper) : SourcesAre [] W.start := ⟨rfl, by simp [AlgoWrapper.start]⟩

/-- There is one provider for every initialised input, and it asks for the key of it. -/
theorem initDataSource_readers {R : HostRun} {inputs : List InputData} (hm : Marshals W R inputs)
    {bytes : Bytes} {e : Enclave}
    (hbytes : dataInfoBytes R W.dataSession (inputs.map InputData.dataInfo) = .ok bytes)
    (hinit : W.initDataSource bytes W.start = .ok () e) (host : ParserHost) :
    (Feeding.start host e).readers = ((initialised W.dataSession inputs).map
      (askedKey W.dataSession)).map (⟨·, [], 0, false⟩) := by
  have hkeys : ∃ sources, SourcesAre sources e ∧ sources.map Source.batchKey =
      (initialised W.dataSession inputs).map (askedKey W.dataSession) := by
    unfold AlgoWrapper.initDataSource at hinit
    cases hsession : W.dataSession with
    | sealedDataStream =>
      rw [hsession] at hinit hbytes
      cases inputs with
      | nil => cases hbytes
      | cons item items =>
        cases hbytes
        simp only [hm.single item List.mem_cons_self] at hinit
        refine ⟨_, (initSealedDataSource_sources _).ok (start_sources W) hinit, ?_⟩
        simp [Source.batchKey, initialised, askedKey, InputData.sourceKey, InputData.dataInfo]
    | multiDataStream =>
      rw [hsession] at hinit hbytes
      cases hbytes
      simp only [hm.multi] at hinit
      refine ⟨_, (initMultiDataSource_sources _).ok (start_sources W) hinit, ?_⟩
      simp only [List.map_map, initialised]
      apply List.map_congr_left
      intro item _
      exact batchKey_infoSource item
    | rawDataStream =>
      rw [hsession] at hinit hbytes
      cases inputs with
      | nil => cases hbytes
      | cons item items =>
        cases hbytes
        cases hinit
        refine ⟨[⟨none, item.inputDataHash⟩], resetDatasource_sources W.start
          (W.rawDataProvider W.start item.inputDataHash) W.start.mDsUsePkey, ?_⟩
        simp [Source.batchKey, initialised, askedKey]
    | noinputDataStream =>
      rw [hsession] at hinit
      cases hinit
  obtain ⟨sources, hsources, heq⟩ := hkeys
  rw [start_readers hsources, heq]

end Enclave

section Entries
variable {R : HostRun}

/-- The file at the url is a sealed file with the given records. -/
structure Stored (R : HostRun) (url : String) (cells : List Bytes) : Prop where
  disk : R.disk url = some (diskOf sealedParams cells)
  nonempty : cells ≠ []
  size : ∀ cell ∈ cells, cell.length < 2 ^ 64

lemma feedInput_ok {n : ℕ} {item : InputData} {h h' : ParserHost}
    (hfeed : feedInput R n item h = .ok h') :
    h.addDataSource item.inputDataHash item.shuInfo.pkey (R.disk item.inputDataUrl) = .ok h' := by
  unfold feedInput at hfeed
  split at hfeed
  · cases hfeed
  · rename_i hadd
    split at hfeed
    · cases hfeed
    · cases hfeed
      exact hadd

lemma insert_other (h : ParserHost) {key key' : Bytes} (hne : key' ≠ key) (ssf : FileObject) :
    (h.insert key ssf).mDataSources key' = h.mDataSources key' := Function.update_of_ne hne _ _

lemma insert_kept (h : ParserHost) {key : Bytes} {old : FileObject}
    (hold : h.mDataSources key = some old) (key' : Bytes) (ssf : FileObject) :
    (h.insert key' ssf).mDataSources key = some old := by
  by_cases heq : key = key'
  · subst heq
    simp [ParserHost.insert, hold]
  · rw [insert_other h heq, hold]

/-- Under a key that the map does not have yet, the first input with that key is entered. -/
theorem feedInputs_entered {recordsAt : String → List Bytes} {inputs : List InputData}
    (hstored : ∀ item ∈ inputs, Stored R item.inputDataUrl (recordsAt item.inputDataUrl))
    {n : ℕ} {h h' : ParserHost} (hfeed : feedInputs R n inputs h = .ok h') (key : Bytes) :
    (∀ ssf, h.mDataSources key = some ssf → h'.mDataSources key = some ssf) ∧
      (h.mDataSources key = none → match inputs.find? (·.sourceKey = key) with
        | none => h'.mDataSources key = none
        | some served => ∃ ssf : FileObject, h'.mDataSources key = some ssf ∧
          ssf.mFile = readAt (diskOf sealedParams (recordsAt served.inputDataUrl)) 0) := by
  induction inputs generalizing n h with
  | nil =>
    cases hfeed
    exact ⟨fun _ hssf => hssf, fun hnone => hnone⟩
  | cons item inputs ih =>
    unfold feedInputs at hfeed
    split at hfeed
    · cases hfeed
    · rename_i h₁ hfirst
      have hadd := feedInput_ok hfirst
      rw [(hstored item List.mem_cons_self).disk] at hadd
      obtain ⟨ssf, hinsert, hfile⟩ := addDataSource_insert h item.inputDataHash item.shuInfo.pkey
        (recordsAt item.inputDataUrl)
      rw [hinsert] at hadd
      cases hadd
      obtain ⟨hkept, hnew⟩ := ih (fun i hi => hstored i (List.mem_cons_of_mem _ hi)) hfeed
      refine ⟨fun old hold => hkept old (insert_kept h hold _ ssf), ?_⟩
      intro hnone
      by_cases heq : item.sourceKey = key
      · have hentry : (h.insert item.sourceKey ssf).mDataSources key = some ssf := by
          rw [heq]
          simp [ParserHost.insert, hnone]
        rw [List.find?_cons_of_pos (by simpa using heq)]
        exact ⟨ssf, hkept ssf hentry, hfile⟩
      · rw [List.find?_cons_of_neg (by simpa using heq)]
        apply hnew
        exact (insert_other h (fun hkey => heq hkey.symm) ssf).trans hnone

end Entries

section Reading

/-- A record that `next_data_batch` hands over. -/
def HandedOver (cell : Bytes) : Prop :=
  0 < cell.length ∧ cell.length ≤ sealedParams.blockSizeLimit

instance (cell : Bytes) : Decidable (HandedOver cell) :=
  inferInstanceAs (Decidable (_ ∧ _))

/-- The records up to the first one that is not handed over. -/
def readable (cells : List Bytes) : List Bytes := cells.takeWhile (HandedOver ·)

lemma next_readable {cells : List Bytes} {k : ℕ} (hk : k < (readable cells).length) :
    ∃ cell, cells.drop k = cell :: cells.drop (k + 1) ∧ HandedOver cell ∧
      (readable cells).take (k + 1) = (readable cells).take k ++ [cell] := by
  have hreadable : readable cells <+: cells := List.takeWhile_prefix _
  have hlen : k < cells.length := lt_of_lt_of_le hk hreadable.length_le
  have hget : cells[k] = (readable cells)[k] := (hreadable.getElem hk).symm
  refine ⟨cells[k], List.drop_eq_getElem_cons hlen, ?_, ?_⟩
  · have hmem : cells[k] ∈ readable cells := by
      rw [hget]
      exact List.getElem_mem hk
    simpa using List.mem_takeWhile_imp hmem
  · rw [hget, List.take_succ_eq_append_getElem hk]

/-- What follows the readable records is not handed over: a record or the end of the data,
which reads as an empty one. -/
lemma next_unreadable (cells : List Bytes) :
    ∃ cell rest, cells.drop (readable cells).length ++ [[]] = cell :: rest ∧
      ¬ HandedOver cell ∧ (cell ∈ cells ∨ cell = []) := by
  induction cells with
  | nil => exact ⟨[], [], rfl, by simp [HandedOver], .inr rfl⟩
  | cons c cells ih =>
    by_cases hc : HandedOver c
    · obtain ⟨cell, rest, hdrop, hnot, hmem⟩ := ih
      refine ⟨cell, rest, ?_, hnot, hmem.imp_left (List.mem_cons_of_mem _)⟩
      simpa [readable, hc] using hdrop
    · refine ⟨c, cells ++ [[]], ?_, hc, .inl List.mem_cons_self⟩
      simp [readable, hc]

theorem nextDataBatch_unreadable {h : ParserHost} {key disk cell rest : Bytes}
    (hr : ReadsFrom h key disk (record cell ++ rest)) (hlen : cell.length < 2 ^ 64)
    (hnot : ¬ HandedOver cell) :
    (nextDataBatch key h).1 = .status .sealedFileReachEnd := by
  by_cases hsize : cell.length ≤ sealedParams.blockSizeLimit
  · obtain ⟨h', hnext, -⟩ := nextDataBatch_record hr hsize
    have hempty : ¬ cell.length ≠ 0 := fun hne => hnot ⟨by omega, hsize⟩
    rw [hnext, if_neg hempty]
  · obtain ⟨ssf, p, hs, hf, hd⟩ := hr
    obtain ⟨-, hsmall⟩ := nextItem_refused disk rest cell p hf hd hlen
    simp only [nextDataBatch, hs, hsmall sealedParams.blockSizeLimit (by omega)]

lemma nextDataBatch_other (h : ParserHost) {key key' : Bytes} (hne : key' ≠ key) :
    (nextDataBatch key h).2.mDataSources key' = h.mDataSources key' := by
  unfold nextDataBatch
  split
  · rfl
  · split <;> exact Function.update_of_ne hne _ _

/-- A provider that has a file to itself: it has been given as many of the readable records as
it has called for, or all of them and then the end. -/
def Follows (disk : Bytes) (cells : List Bytes) (h : ParserHost) (r : Reader) : Prop :=
  (r.mDataReachEnd = false ∧ r.calls ≤ (readable cells).length ∧
      r.received = (readable cells).take r.calls ∧
      ∃ rest, ReadsFrom h r.batchKey disk (records (cells.drop r.calls ++ [[]]) ++ rest)) ∨
    (r.mDataReachEnd = true ∧ r.calls = (readable cells).length + 1 ∧ r.received = readable cells)

variable {disk : Bytes} {cells : List Bytes} {h : ParserHost} {r : Reader}

theorem Follows.own (hsize : ∀ cell ∈ cells, cell.length < 2 ^ 64)
    (hr : Follows disk cells h r) (hlive : r.mDataReachEnd = false) :
    Follows disk cells (nextDataBatch r.batchKey h).2
      (r.receive (nextDataBatch r.batchKey h).1) := by
  obtain ⟨-, hcalls, hreceived, rest, hfile⟩ | ⟨hend, -⟩ := hr
  swap
  · rw [hlive] at hend
    cases hend
  rcases hcalls.lt_or_eq with hlt | heq
  · obtain ⟨cell, hdrop, hcell, htake⟩ := next_readable hlt
    have hrecs : records (cells.drop r.calls ++ [[]]) ++ rest =
        record cell ++ (records (cells.drop (r.calls + 1) ++ [[]]) ++ rest) := by
      rw [hdrop]
      simp [records]
    rw [hrecs] at hfile
    obtain ⟨h', hnext, hfile'⟩ := nextDataBatch_record hfile hcell.2
    rw [if_pos hcell.1.ne'] at hnext
    rw [hnext]
    refine .inl ⟨hlive, hlt, ?_, rest, hfile'⟩
    simp only [Reader.receive]
    rw [hreceived, htake]
  · obtain ⟨cell, others, hdrop, hcell, hmem⟩ := next_unreadable cells
    have hlen : cell.length < 2 ^ 64 := by
      rcases hmem with hmem | rfl
      · exact hsize cell hmem
      · simp
    have hrecs : records (cells.drop r.calls ++ [[]]) ++ rest =
        record cell ++ (records others ++ rest) := by
      rw [heq, hdrop]
      simp [records]
    rw [hrecs] at hfile
    rw [nextDataBatch_unreadable hfile hlen hcell]
    refine .inr ⟨rfl, ?_, ?_⟩
    · simp only [Reader.receive, heq]
    · simp only [Reader.receive]
      rw [hreceived, heq, List.take_length]

theorem Follows.other (hr : Follows disk cells h r) {key : Bytes} (hne : r.batchKey ≠ key) :
    Follows disk cells (nextDataBatch key h).2 r := by
  obtain ⟨hlive, hcalls, hreceived, rest, ssf, p, hs, hfile⟩ | hend := hr
  · exact .inl ⟨hlive, hcalls, hreceived, rest, ssf, p,
      (nextDataBatch_other h hne).trans hs, hfile⟩
  · exact .inr hend

/-- The records of a file have been received in order, and the end has been told behind the
last one. -/
def ReadsItsFile (cells : List Bytes) (r : Reader) : Prop :=
  r.received = cells.take r.calls ∧ (r.mDataReachEnd = true ↔ cells.length < r.calls)

lemma Follows.reads (hr : Follows disk cells h r) : ReadsItsFile (readable cells) r := by
  obtain ⟨hlive, hcalls, hreceived, -⟩ | ⟨hend, hcalls, hreceived⟩ := hr
  · refine ⟨hreceived, ?_⟩
    simp only [hlive, Bool.false_eq_true, false_iff]
    omega
  · constructor
    · rw [hreceived, List.take_of_length_le (by omega)]
    · simp only [hend, true_iff]
      omega

end Reading

section Interleaving

lemma step_live {s : Feeding} {j : ℕ} {r : Reader} (hr : s.readers[j]? = some r)
    (hlive : r.mDataReachEnd = false) :
    s.step j = ⟨(nextDataBatch r.batchKey s.host).2,
      s.readers.set j (r.receive (nextDataBatch r.batchKey s.host).1)⟩ := by
  simp only [Feeding.step, hr, hlive, Bool.false_eq_true, if_false]

lemma step_live_own {s : Feeding} {j : ℕ} {r : Reader} (hr : s.readers[j]? = some r)
    (hlive : r.mDataReachEnd = false) :
    (s.step j).readers[j]? = some (r.receive (nextDataBatch r.batchKey s.host).1) := by
  rw [step_live hr hlive]
  exact List.getElem?_set_self (List.getElem?_eq_some_iff.mp hr).1

lemma step_keys (s : Feeding) (j : ℕ) :
    (s.step j).readers.map Reader.batchKey = s.readers.map Reader.batchKey := by
  unfold Feeding.step
  split
  · rfl
  · rename_i r hr
    split
    · rfl
    · have hkey (answer : BatchAnswer) : (r.receive answer).batchKey = r.batchKey := by
        cases answer <;> rfl
      rw [List.map_set, hkey]
      apply List.ext_getElem?
      intro i
      rw [List.getElem?_set]
      split_ifs with hi hlt
      · subst hi
        simp [hr]
      · subst hi
        rw [List.getElem?_eq_none (by omega)]
      · rfl

/-- The provider at place `i` follows the file under its key. -/
def Following (disk : Bytes) (cells : List Bytes) (i : ℕ) (s : Feeding) : Prop :=
  ∃ r, s.readers[i]? = some r ∧ Follows disk cells s.host r

variable {disk : Bytes} {cells : List Bytes} {i : ℕ}

theorem following_step (hsize : ∀ cell ∈ cells, cell.length < 2 ^ 64) {s : Feeding} {j : ℕ}
    (h : Following disk cells i s)
    (hj : j = i ∨ (s.readers.map Reader.batchKey)[j]? ≠ (s.readers.map Reader.batchKey)[i]?) :
    Following disk cells i (s.step j) := by
  obtain ⟨r, hr, hfollows⟩ := h
  unfold Feeding.step
  cases hr' : s.readers[j]? with
  | none => exact ⟨r, hr, hfollows⟩
  | some r' =>
    dsimp only
    split_ifs with hend
    · exact ⟨r, hr, hfollows⟩
    · by_cases heq : j = i
      · subst heq
        rw [hr] at hr'
        cases hr'
        refine ⟨_, ?_, hfollows.own hsize (by simpa using hend)⟩
        rw [List.getElem?_set_self (List.getElem?_eq_some_iff.mp hr).1]
      · refine ⟨r, ?_, hfollows.other ?_⟩
        · simp only [List.getElem?_set_ne heq, hr]
        · intro hkey
          refine hj.resolve_left heq ?_
          rw [List.getElem?_map, List.getElem?_map, hr, hr', Option.map_some, Option.map_some, hkey]

/-- In a run in which no other provider asks for its key, a provider follows its file. -/
theorem following_run (hsize : ∀ cell ∈ cells, cell.length < 2 ^ 64) {s : Feeding}
    (h : Following disk cells i s) (order : List ℕ)
    (horder : ∀ j ∈ order, j = i ∨
      (s.readers.map Reader.batchKey)[j]? ≠ (s.readers.map Reader.batchKey)[i]?) :
    Following disk cells i (run Feeding.step s order) := by
  induction order generalizing s with
  | nil => exact h
  | cons j order ih =>
    apply ih (following_step hsize h (horder j List.mem_cons_self))
    rw [step_keys]
    exact fun j' hj' => horder j' (List.mem_cons_of_mem _ hj')

/-- A provider that goes on calling is told the end. By induction on the calls that are left. -/
theorem following_ends (hsize : ∀ cell ∈ cells, cell.length < 2 ^ 64) {s : Feeding} {r : Reader}
    (hr : s.readers[i]? = some r) (h : Follows disk cells s.host r) :
    ∃ k r', (run Feeding.step s (List.replicate k i)).readers[i]? = some r' ∧
      r'.mDataReachEnd = true ∧ r'.received = readable cells := by
  induction hleft : (readable cells).length + 1 - r.calls generalizing s r with
  | zero =>
    obtain ⟨-, hcalls, -⟩ | ⟨hend, -, hreceived⟩ := h
    · omega
    · exact ⟨0, r, hr, hend, hreceived⟩
  | succ n ih =>
    obtain ⟨hlive, hcalls, -⟩ | ⟨hend, -, hreceived⟩ := id h
    · have hcount (answer : BatchAnswer) : (r.receive answer).calls = r.calls + 1 := by
        cases answer <;> rfl
      have hfollows : Follows disk cells (s.step i).host
          (r.receive (nextDataBatch r.batchKey s.host).1) := by
        rw [step_live hr hlive]
        exact h.own hsize hlive
      obtain ⟨k, r', hrun, hdone⟩ := ih (step_live_own hr hlive) hfollows (by rw [hcount]; omega)
      exact ⟨k + 1, r', hrun, hdone⟩
    · exact ⟨0, r, hr, hend, hreceived⟩

end Interleaving

section Agreement
variable {W : AlgoWrapper} {R : HostRun} {inputs : List InputData} {recordsAt : String → List Bytes}

/-- Every provider has received the records of the file of its input. -/
def EachReadsItsFile (recordsAt : String → List Bytes) (items : List InputData) (s : Feeding) :
    Prop :=
  s.readers.length = items.length ∧ ∀ (i : ℕ) (item : InputData) (r : Reader),
    items[i]? = some item → s.readers[i]? = some r → ReadsItsFile (recordsAt item.inputDataUrl) r

/-- No two providers ask for one key, and the file that the host has entered under the key of a
provider, which is that of the first input with this key, has the records of the provider's
own input, all of which are handed over. -/
structure Resolved (session : DataSession) (recordsAt : String → List Bytes)
    (inputs : List InputData) : Prop where
  apart : ((initialised session inputs).map (askedKey session)).Nodup
  served : ∀ item ∈ initialised session inputs, ∃ other,
    inputs.find? (·.sourceKey = askedKey session item) = some other ∧
      readable (recordsAt other.inputDataUrl) = recordsAt item.inputDataUrl

/-- What a successful `feed_datasource` leaves. -/
structure Fed (session : DataSession) (recordsAt : String → List Bytes) (inputs : List InputData)
    (s : Feeding) : Prop where
  readers : s.readers = ((initialised session inputs).map (askedKey session)).map
    (⟨·, [], 0, false⟩)
  entered : ∀ item ∈ initialised session inputs,
    match inputs.find? (·.sourceKey = askedKey session item) with
    | none => s.host.mDataSources (askedKey session item) = none
    | some other => ∃ ssf : FileObject,
      s.host.mDataSources (askedKey session item) = some ssf ∧
        ssf.mFile = readAt (diskOf sealedParams (recordsAt other.inputDataUrl)) 0

lemma initialised_subset (session : DataSession) (inputs : List InputData) :
    initialised session inputs ⊆ inputs := by
  cases session with
  | sealedDataStream => exact List.take_subset 1 inputs
  | multiDataStream => exact List.Subset.refl inputs
  | rawDataStream => exact List.take_subset 1 inputs
  | noinputDataStream => exact List.nil_subset inputs

theorem feedDatasource_fed (hm : Marshals W R inputs)
    (hstored : ∀ item ∈ inputs, Stored R item.inputDataUrl (recordsAt item.inputDataUrl))
    {buf : Bytes} {host : ParserHost} {e : Enclave}
    (hfeed : feedDatasource R W inputs ⟨fun _ => none, buf⟩ W.start = .ok (host, e)) :
    Fed W.dataSession recordsAt inputs (Feeding.start host e) := by
  unfold feedDatasource at hfeed
  split_ifs at hfeed with hsession hmissing
  · cases hfeed
    rw [hsession]
    exact ⟨rfl, fun item hitem => absurd hitem List.not_mem_nil⟩
  · split at hfeed
    · cases hfeed
    · rename_i h' hinputs
      split at hfeed
      · cases hfeed
      · rename_i bytes hbytes
        split at hfeed
        · cases hfeed
        · rename_i e' hinit
          cases hfeed
          refine ⟨initDataSource_readers hm hbytes hinit host, ?_⟩
          intro item _
          exact (feedInputs_entered hstored hinputs _).2 rfl

section Fed
variable {session : DataSession} {s : Feeding}

lemma Fed.reader (h : Fed session recordsAt inputs s) {i : ℕ} {item : InputData}
    (hi : (initialised session inputs)[i]? = some item) :
    s.readers[i]? = some ⟨askedKey session item, [], 0, false⟩ := by
  simp [h.readers, hi]

lemma Fed.keys (h : Fed session recordsAt inputs s) :
    s.readers.map Reader.batchKey = (initialised session inputs).map (askedKey session) := by
  simp [h.readers]

/-- A new provider is at the start of the file under its key. -/
lemma Fed.follows (h : Fed session recordsAt inputs s)
    (hstored : ∀ item ∈ inputs, Stored R item.inputDataUrl (recordsAt item.inputDataUrl))
    {item other : InputData} (hitem : item ∈ initialised session inputs)
    (hfind : inputs.find? (·.sourceKey = askedKey session item) = some other) :
    Follows (diskOf sealedParams (recordsAt other.inputDataUrl))
      (recordsAt other.inputDataUrl) s.host
      ⟨askedKey session item, [], 0, false⟩ := by
  have hentered := h.entered item hitem
  rw [hfind] at hentered
  obtain ⟨ssf, hs, hf⟩ := hentered
  have hother := hstored other (List.mem_of_find?_eq_some hfind)
  obtain ⟨rest, htrailer⟩ := diskOf_trailer sealedParams _ hother.nonempty
  exact .inl ⟨rfl, Nat.zero_le _, rfl, rest, ssf, 0, hs, hf, htrailer⟩

theorem Fed.each_reads (h : Fed session recordsAt inputs s)
    (hstored : ∀ item ∈ inputs, Stored R item.inputDataUrl (recordsAt item.inputDataUrl))
    (hresolved : Resolved session recordsAt inputs) (order : List ℕ) :
    EachReadsItsFile recordsAt (initialised session inputs) (run Feeding.step s order) := by
  have hkeys : (run Feeding.step s order).readers.map Reader.batchKey =
      (initialised session inputs).map (askedKey session) := by
    refine @run_always _ _ Feeding.step (fun s => s.readers.map Reader.batchKey =
      (initialised session inputs).map (askedKey session)) ?_ s order h.keys
    intro s j hs
    rw [step_keys, hs]
  constructor
  · simpa using congrArg List.length hkeys
  · intro i item r hi hr
    have hitem := List.mem_of_getElem? hi
    obtain ⟨other, hfind, hrecords⟩ := hresolved.served item hitem
    have hother := hstored other (List.mem_of_find?_eq_some hfind)
    have hstart : Following _ _ i s := ⟨_, h.reader hi, h.follows hstored hitem hfind⟩
    obtain ⟨r', hr', hfollows⟩ := following_run hother.size hstart order (by
      intro j _
      rw [h.keys, or_iff_not_imp_left]
      intro hne heq
      have hlt : i < ((initialised session inputs).map (askedKey session)).length := by
        rw [List.length_map]
        exact (List.getElem?_eq_some_iff.mp hi).1
      exact hne ((List.getElem?_inj hlt hresolved.apart).mp heq.symm).symm)
    rw [hr] at hr'
    cases hr'
    rw [← hrecords]
    exact hfollows.reads

/-- Under a key without a file the first call is told the end. -/
lemma Fed.found (h : Fed session recordsAt inputs s)
    (hlaw : ∀ order, EachReadsItsFile recordsAt (initialised session inputs)
      (run Feeding.step s order)) {i : ℕ} {item : InputData}
    (hi : (initialised session inputs)[i]? = some item)
    (hne : recordsAt item.inputDataUrl ≠ []) :
    ∃ other, inputs.find? (·.sourceKey = askedKey session item) = some other := by
  cases hfind : inputs.find? (·.sourceKey = askedKey session item) with
  | some other => exact ⟨other, rfl⟩
  | none =>
    have hentered := h.entered item (List.mem_of_getElem? hi)
    rw [hfind] at hentered
    have hnext : (nextDataBatch (askedKey session item) s.host).1 =
        .status .dataSourceNotFound := by
      unfold nextDataBatch
      rw [show s.host.mDataSources (askedKey session item) = none from hentered]
    have hlast : (run Feeding.step s [i]).readers[i]? =
        some ⟨askedKey session item, [], 1, true⟩ := by
      rw [run_cons, run_nil, step_live_own (h.reader hi) rfl, hnext]
      rfl
    have hlen := ((hlaw [i]).2 i item _ hi hlast).2.mp rfl
    exact absurd (List.length_eq_zero_iff.mp (Nat.lt_one_iff.mp hlen)) hne

/-- A provider that has been told the end has received its file. -/
lemma ReadsItsFile.received_all {cells : List Bytes} {r : Reader} (h : ReadsItsFile cells r)
    (hend : r.mDataReachEnd = true) : r.received = cells := by
  rw [h.1, List.take_of_length_le (h.2.mp hend).le]

/-- Of two providers with one key, the second misses the record that the first has read. -/
lemma Fed.shared (h : Fed session recordsAt inputs s)
    (hstored : ∀ item ∈ inputs, Stored R item.inputDataUrl (recordsAt item.inputDataUrl))
    (hlaw : ∀ order, EachReadsItsFile recordsAt (initialised session inputs)
      (run Feeding.step s order)) {i j : ℕ} (hij : i ≠ j) {item item' other : InputData}
    (hi : (initialised session inputs)[i]? = some item)
    (hj : (initialised session inputs)[j]? = some item')
    (hfind : inputs.find? (·.sourceKey = askedKey session item) = some other)
    (hreadable : readable (recordsAt other.inputDataUrl) = recordsAt item'.inputDataUrl) :
    askedKey session item ≠ askedKey session item' := by
  intro hkey
  have hne := (hstored item' (initialised_subset _ _ (List.mem_of_getElem? hj))).nonempty
  have hsize := (hstored other (List.mem_of_find?_eq_some hfind)).size
  have hfollows := h.follows hstored (List.mem_of_getElem? hi) hfind
  generalize hcells : recordsAt other.inputDataUrl = cells at *
  cases cells with
  | nil => exact hne hreadable.symm
  | cons cell cells =>
    have hcell : HandedOver cell := by
      by_contra hnot
      apply hne
      rw [← hreadable]
      simp [readable, hnot]
    obtain ⟨-, -, -, rest, hfile⟩ | ⟨hend, -⟩ := hfollows
    · have hrecs : BlockFile.records ((cell :: cells).drop 0 ++ [[]]) ++ rest =
          record cell ++ (BlockFile.records (cells ++ [[]]) ++ rest) := by
        simp [BlockFile.records]
      rw [hrecs] at hfile
      obtain ⟨h', hnext, hfile'⟩ := nextDataBatch_record hfile hcell.2
      have hstep := step_live (h.reader hi) rfl
      have hreader : (s.step i).readers[j]? = some ⟨askedKey session item', [], 0, false⟩ := by
        rw [hstep, List.getElem?_set_ne hij]
        exact h.reader hj
      have hbehind : Follows (diskOf sealedParams (cell :: cells)) cells (s.step i).host
          ⟨askedKey session item', [], 0, false⟩ := by
        rw [hstep, ← hkey]
        refine .inl ⟨rfl, Nat.zero_le _, rfl, rest, ?_⟩
        rw [hnext]
        exact hfile'
      obtain ⟨k, r, hr, hend, hreceived⟩ := following_ends
        (fun c hc => hsize c (List.mem_cons_of_mem _ hc)) hreader hbehind
      have hall := ((hlaw (i :: List.replicate k j)).2 j item' r hj hr).received_all hend
      rw [hreceived, ← hreadable] at hall
      have hlen := congrArg List.length hall
      simp [readable, hcell] at hlen
    · cases hend

theorem Fed.resolved (h : Fed session recordsAt inputs s)
    (hstored : ∀ item ∈ inputs, Stored R item.inputDataUrl (recordsAt item.inputDataUrl))
    (hlaw : ∀ order, EachReadsItsFile recordsAt (initialised session inputs)
      (run Feeding.step s order)) :
    Resolved session recordsAt inputs := by
  have hserved : ∀ item ∈ initialised session inputs, ∃ other,
      inputs.find? (·.sourceKey = askedKey session item) = some other ∧
        readable (recordsAt other.inputDataUrl) = recordsAt item.inputDataUrl := by
    intro item hitem
    obtain ⟨i, hi⟩ := List.getElem?_of_mem hitem
    have hne := (hstored item (initialised_subset _ _ hitem)).nonempty
    obtain ⟨other, hfind⟩ := h.found hlaw hi hne
    have hother := hstored other (List.mem_of_find?_eq_some hfind)
    obtain ⟨k, r, hr, hend, hreceived⟩ := following_ends hother.size (h.reader hi)
      (h.follows hstored hitem hfind)
    refine ⟨other, hfind, ?_⟩
    rw [← hreceived, ((hlaw _).2 i item r hi hr).received_all hend]
  refine ⟨?_, hserved⟩
  rw [List.nodup_iff_getElem?_ne_getElem?]
  intro i j hij hj heq
  rw [List.length_map] at hj
  have hitem := List.getElem?_eq_getElem (lt_trans hij hj)
  have hitem' := List.getElem?_eq_getElem hj
  rw [List.getElem?_map, List.getElem?_map, hitem, hitem'] at heq
  obtain ⟨other, hfind, -⟩ := hserved _ (List.mem_of_getElem? hitem)
  obtain ⟨other', hfind', hreadable⟩ := hserved _ (List.mem_of_getElem? hitem')
  have hkey := Option.some.inj heq
  rw [← hkey, hfind] at hfind'
  cases hfind'
  exact h.shared hstored hlaw hij.ne hitem hitem' hfind hreadable hkey

end Fed

/-- After `feed_datasource` has succeeded, in every order of the calls every provider reads the
file of its own input, if and only if the inputs are resolved. -/
theorem providers_read_their_files_iff (hm : Marshals W R inputs)
    (hstored : ∀ item ∈ inputs, Stored R item.inputDataUrl (recordsAt item.inputDataUrl))
    {buf : Bytes} {host : ParserHost} {e : Enclave}
    (hfeed : feedDatasource R W inputs ⟨fun _ => none, buf⟩ W.start = .ok (host, e)) :
    (∀ order, EachReadsItsFile recordsAt (initialised W.dataSession inputs)
      (run Feeding.step (Feeding.start host e) order)) ↔
      Resolved W.dataSession recordsAt inputs := by
  have hfed := feedDatasource_fed hm hstored hfeed
  exact ⟨hfed.resolved hstored, hfed.each_reads hstored⟩

end Agreement

section Demo

/-- A host with one sealed file at every url and a key manager that takes every key. -/
def demoRun : HostRun where
  disk _ := some (diskOf sealedParams [[1], [2]])
  forwardPrivateKey _ _ _ _ _ := .ok ()
  dianPkey := demoPkey 6
  sealedDataInfo info := [info.pkey.headD 0]
  multiSealedDataInfo infos := infos.map fun info => info.pkey.headD 0

/-- The data of the owner `a`. -/
def demoItem (a : UInt8) : InputData := ⟨"data", demoDataHash, ⟨demoPkey a, [], [], []⟩⟩

/-- The records of every file. -/
def demoRecords (_ : String) : List Bytes := [[1], [2]]

lemma demo_stored (owners : List UInt8) : ∀ item ∈ owners.map demoItem,
    Stored demoRun item.inputDataUrl (demoRecords item.inputDataUrl) := by
  intro item hitem
  obtain ⟨a, -, rfl⟩ := List.mem_map.mp hitem
  exact ⟨rfl, by simp [demoRecords], by simp [demoRecords]⟩

lemma demo_marshals (owners : List UInt8) :
    Marshals multiWrapper demoRun (owners.map demoItem) := by
  constructor
  · intro item hitem
    obtain ⟨a, -, rfl⟩ := List.mem_map.mp hitem
    rfl
  · simp [multiWrapper, demoWrapper, demoPackages, demoRun, Function.comp_def]
    intro a _
    rfl

lemma demo_feed (owners : List UInt8) (h : (feedDatasource demoRun multiWrapper
    (owners.map demoItem) ⟨fun _ => none, []⟩ multiWrapper.start).isOk = true) :
    ∃ host e, feedDatasource demoRun multiWrapper (owners.map demoItem) ⟨fun _ => none, []⟩
      multiWrapper.start = .ok (host, e) := by
  cases hfeed : feedDatasource demoRun multiWrapper (owners.map demoItem) ⟨fun _ => none, []⟩
      multiWrapper.start with
  | error error =>
    rw [hfeed] at h
    cases h
  | ok made => exact ⟨made.1, made.2, rfl⟩

theorem two_owners_read_their_files :
    ∃ host e, feedDatasource demoRun multiWrapper ([4, 5].map demoItem) ⟨fun _ => none, []⟩
        multiWrapper.start = .ok (host, e) ∧
      ∀ order, EachReadsItsFile demoRecords ([4, 5].map demoItem)
        (run Feeding.step (Feeding.start host e) order) := by
  obtain ⟨host, e, hfeed⟩ := demo_feed [4, 5] (by decide +kernel)
  refine ⟨host, e, hfeed, ?_⟩
  refine (providers_read_their_files_iff (demo_marshals [4, 5]) (demo_stored [4, 5]) hfeed).mpr
    ⟨by decide +kernel, ?_⟩
  have hreadable : readable [[1], [2]] = [[1], [2]] := by decide +kernel
  intro item hitem
  refine ⟨item, ?_, hreadable⟩
  revert item
  decide +kernel

/-- The same data twice: the two providers share one cursor. -/
theorem equal_inputs_share_a_cursor :
    ∃ host e, feedDatasource demoRun multiWrapper ([5, 5].map demoItem) ⟨fun _ => none, []⟩
        multiWrapper.start = .ok (host, e) ∧
      ¬ ∀ order, EachReadsItsFile demoRecords ([5, 5].map demoItem)
        (run Feeding.step (Feeding.start host e) order) := by
  obtain ⟨host, e, hfeed⟩ := demo_feed [5, 5] (by decide +kernel)
  refine ⟨host, e, hfeed, ?_⟩
  intro hlaw
  have hfed := feedDatasource_fed (demo_marshals [5, 5]) (demo_stored [5, 5]) hfeed
  exact absurd (hfed.resolved (demo_stored [5, 5]) hlaw).apart (by decide +kernel)

end Demo

end PrivacyComputing.DataSources
