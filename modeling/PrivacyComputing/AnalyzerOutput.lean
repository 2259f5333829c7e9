import PrivacyComputing.AnalyzerFrame

/-! What leaves the enclave: `get_analyze_result` of the result policies beside the other
ecalls, with a history that tells from which `parse_data_item` a returned result comes and
which data sources have passed `check_actual_data_hash`. -/
namespace PrivacyComputing.Analyzer
open Calls DataProvider Runs

structure OnchainResultPackage where
  dataHash : Bytes
  encryptedResult : Bytes
  resultSignature : Bytes
  costSignature : Bytes
  deriving DecidableEq, Repr

structure OffchainResultPackage where
  encryptedResult : Bytes
  encryptedResultHash : Bytes
  dataHash : Bytes
  resultSignature : Bytes
  costSignature : Bytes
  resultEncryptKey : Bytes
  pkey : Bytes
  deriving DecidableEq, Repr

/-- The marshalling of the packages that are handed out. -/
structure ResultMarshal where
  onchain : OnchainResultPackage → Bytes
  offchain : OffchainResultPackage → Bytes

inductive HostCall
  | ecall (ecall : Ecall)
  | getAnalyzeResultSize
  | getAnalyzeResult (size : ℕ)
  deriving DecidableEq, Repr

/-- `parsed` is a `parse_data_item` that returned success, on the sources of its parser, and
`checked` a `check_actual_data_hash` that returned success, with the data sources. A result that
is handed out names the parses that its result and its data hash come from, `generated` the
requester that the result was made for. -/
inductive OutputEvent
  | parsed (call : ℕ) (sources : List ℕ)
  | checked (datasources : List (ℕ × Provider))
  | generated (requester : Bytes) (made : ResultVars)
  | sized (size : ℕ)
  | returned (result : Bytes) (resultOf dataHashOf : Option ℕ)
  deriving DecidableEq, Repr

/-- `madeFrom` is the parse whose result the policy has encrypted last. -/
structure Output where
  enclave : Enclave
  madeFrom : Option ℕ
  history : List OutputEvent
  deriving DecidableEq, Repr

def Output.log (s : Output) (event : OutputEvent) : Output :=
  { s with history := event :: s.history }

def Enclave.onchainPackage (e : Enclave) : OnchainResultPackage where
  dataHash := e.vars.mDataHash.value
  encryptedResult := e.results.mEncryptedResultStr
  resultSignature := e.results.mResultSignatureStr
  costSignature := e.results.mCostSignatureStr

/-- `get_result_pkg` of the off-chain policies. -/
def Enclave.getResultPkg (e : Enclave) : OffchainResultPackage where
  encryptedResult := e.results.mEncryptedResultStr
  encryptedResultHash := e.results.mEncryptedResultHash
  dataHash := e.vars.mDataHash.value
  resultSignature := e.results.mResultSignatureStr
  costSignature := e.results.mCostSignatureStr
  resultEncryptKey := e.results.mEncryptedTmpSkey
  pkey := e.results.mTmpPkey

def Enclave.checkedSources (e : Enclave) : List (ℕ × Provider) :=
  e.mDatasource.filterMap fun id => e.providers[id]?.map (id, ·)

namespace AlgoWrapper
variable (W : AlgoWrapper) (M : ResultMarshal)

/-- What `get_analyze_result` copies out. -/
def resultBytes (e : Enclave) : Bytes :=
  match W.result with
  | .localResult => e.vars.mResult.value
  | .onchainResult => M.onchain e.onchainPackage
  | .offchainResult | .offchainFileResult => M.offchain e.getResultPkg
  | .forwardResult => e.results.mResultBytes

def getAnalyzeResultSize (e : Enclave) : ℕ := (W.resultBytes M e).length

/-- The forward policy copies all of its bytes, whatever the size of the buffer. -/
def getAnalyzeResult (e : Enclave) (size : ℕ) : Except StxError Bytes :=
  match W.result with
  | .forwardResult => .ok (W.resultBytes M e)
  | _ =>
    if size ≠ W.getAnalyzeResultSize M e then .error .outBufferLengthError
    else .ok (W.resultBytes M e)

/-- The parse that the result of `get_analyze_result` comes from. -/
def resultOf (s : Output) : Option ℕ :=
  match W.result with
  | .localResult => s.enclave.vars.mResult.setBy
  | _ => s.madeFrom

/-- The parse that the data hash in it comes from. -/
def dataHashOf (s : Output) : Option ℕ :=
  match W.result with
  | .onchainResult | .offchainResult | .offchainFileResult => s.enclave.vars.mDataHash.setBy
  | .localResult | .forwardResult => none

def outputStart : Output := ⟨W.start, none, []⟩

def outputParse (s : Output) (inputParam : Bytes) : Output :=
  let next := { s with enclave := W.step s.enclave (.parseDataItem inputParam) }
  match W.parseDataItem inputParam s.enclave with
  | .ok () _ => next.log (.parsed s.enclave.calls (s.enclave.mParser.getD []))
  | .error _ _ => next

/-- `generate_result` starts on the state that the check has left as it was. -/
def outputGenerate (s : Output) : Output :=
  match W.generateResult s.enclave with
  | .ok () e => s.log (.generated (W.pkeyA s.enclave) e.results)
  | .error _ _ => s

/-- The parse whose result is in the members of the policy after `generate_result`. All policies
but the forward policy encrypt first, so that even a failure has replaced the old result. -/
def madeBy (s : Output) : Option ℕ :=
  match W.result, W.generateResult s.enclave with
  | .forwardResult, .error _ _ => s.madeFrom
  | _, _ => s.enclave.vars.mResult.setBy

def outputEnd (s : Output) : Output :=
  let e' := W.step s.enclave .endParseDataItem
  match W.checkActualDataHash s.enclave with
  | .ok () _ =>
    { W.outputGenerate (s.log (.checked s.enclave.checkedSources)) with
      enclave := e', madeFrom := W.madeBy s }
  | .error _ _ => { s with enclave := e' }

/-- A call of the host, as long as the enclave lives. -/
def outputStep (s : Output) (call : HostCall) : Output :=
  if s.enclave.crashed then s
  else
    match call with
    | .ecall (.initDataSource info) =>
      { s with enclave := W.step s.enclave (.initDataSource info) }
    | .ecall .beginParseDataItem => { s with enclave := W.step s.enclave .beginParseDataItem }
    | .ecall (.parseDataItem inputParam) => W.outputParse s inputParam
    | .ecall .endParseDataItem => W.outputEnd s
    | .getAnalyzeResultSize => s.log (.sized (W.getAnalyzeResultSize M s.enclave))
    | .getAnalyzeResult size =>
      match W.getAnalyzeResult M s.enclave size with
      | .error _ => s
      | .ok result => s.log (.returned result (W.resultOf s) (W.dataHashOf s))

end AlgoWrapper

/-- After the given parse, every source it ran on has passed a check: its data had the expected
hash. -/
def Verified (older : List OutputEvent) (call : ℕ) : Prop :=
  ∃ newer middle oldest datasources sources,
    older = newer ++ .checked datasources :: (middle ++ .parsed call sources :: oldest) ∧
      ∀ id ∈ sources, ∃ p, (id, p) ∈ datasources ∧ p.dataHash = p.mExpectDataHash

/-- The result that is handed out comes from a verified parse. -/
def ResultVerified (older : List OutputEvent) : OutputEvent → Prop
  | .returned _ (some call) _ => Verified older call
  | _ => True

/-- So does the data hash that is handed out with it. -/
def DataHashVerified (older : List OutputEvent) : OutputEvent → Prop
  | .returned _ _ (some call) => Verified older call
  | _ => True

/-- The latest successful `parse_data_item`. -/
def lastParsed : List OutputEvent → Option (ℕ × List ℕ)
  | [] => none
  | .parsed call sources :: _ => some (call, sources)
  | .checked _ :: older | .generated .. :: older | .sized _ :: older | .returned .. :: older =>
    lastParsed older

/-- No check has succeeded since the latest successful `parse_data_item`. -/
def parsePending : List OutputEvent → Bool
  | [] => false
  | .parsed .. :: _ => true
  | .checked _ :: _ => false
  | .generated .. :: older | .sized _ :: older | .returned .. :: older => parsePending older

/-- `end_parse_data_item` is called while the sources of the latest parse are in place. -/
def SourcesInPlace (s : Output) : HostCall → Prop
  | .ecall .endParseDataItem => ∀ last ∈ lastParsed s.history, last.2 ⊆ s.enclave.mDatasource
  | _ => True

/-- `get_analyze_result` is called when a check has followed the latest parse. -/
def AsksAfterCheck (s : Output) : HostCall → Prop
  | .getAnalyzeResult _ => parsePending s.history = false
  | _ => True

variable {W : AlgoWrapper}

section Bounded

/-- Every data source is there. -/
def Bounded (e : Enclave) : Prop := ∀ id ∈ e.mDatasource, id < e.providers.length

lemma Bounded.same {e e' : Enclave} (h : Bounded e) (hsources : e'.mDatasource = e.mDatasource)
    (hlength : e'.providers.length = e.providers.length) : Bounded e' := by
  unfold Bounded
  rw [hsources, hlength]
  exact h

lemma Bounded.added {e e' : Enclave} (h : Bounded e) (p : Provider)
    (hproviders : e'.providers = e.providers ++ [p])
    (hsources : e'.mDatasource ⊆ e.mDatasource ++ [e.providers.length]) : Bounded e' := by
  intro id hid
  rw [hproviders, List.length_append, List.length_singleton]
  rcases List.mem_append.mp (hsources hid) with hid | hid
  · have := h id hid
    omega
  · rw [List.mem_singleton.mp hid]
    omega

theorem boundedFrame (W : AlgoWrapper) : W.Frame Bounded Bounded where
  fails _ he := he
  request _ := AlgoWrapper.guards_of_keymgr (fun _ he => he) (fun _ _ he => he.same rfl rfl) _
  verified _ _ _ _ he := he.same rfl rfl
  processed _ _ _ _ _ _ _ he := he.same rfl (by simp [Enclave.putProvider])
  results _ _ _ he := he.same rfl rfl

theorem pushSource_bounded (sdi : SealedDataInfo) :
    Guards Bounded Bounded (W.pushSource sdi) := by
  unfold AlgoWrapper.pushSource
  split_ifs
  · refine .bind ((boundedFrame W).requestKey _) fun keys => .of_modify ?_
    intro e he
    exact he.added _ rfl (List.Subset.refl _)
  · refine .of_modify ?_
    intro e he
    exact he.added _ rfl (List.Subset.refl _)

theorem pushSources_bounded (infos : List SealedDataInfo) :
    Guards Bounded Bounded (W.pushSources infos) := by
  induction infos with
  | nil => exact .of_pure
  | cons sdi infos ih => exact .bind (pushSource_bounded sdi) fun _ => ih

theorem initDataSource_bounded (info : Bytes) :
    Guards Bounded Bounded (W.initDataSource info) := by
  have F := boundedFrame W
  have hinit := AlgoWrapper.guards_of_keymgr F.fails (fun _ _ he => Bounded.same he rfl rfl)
    (initKeymgrSession W.outside)
  unfold AlgoWrapper.initDataSource
  split
  · split
    · exact AlgoWrapper.guards_crash F.fails
    · refine .bind hinit fun _ => .bind (F.requestKey _) fun keys => .of_modify ?_
      intro e he
      exact he.added _ rfl (List.subset_append_right _ _)
  · split
    · exact AlgoWrapper.guards_crash F.fails
    · exact .bind hinit fun _ => pushSources_bounded _
  · refine .of_modify ?_
    intro e he
    exact he.added _ rfl (List.subset_append_right _ _)
  · exact AlgoWrapper.guards_failWith F.fails _

theorem bounded_step (e : Enclave) (ecall : Ecall) (h : Bounded e) : Bounded (W.step e ecall) := by
  have F := boundedFrame W
  have hkeymgr (e : Enclave) (k : Keymgr) (he : Bounded e) : Bounded { e with keymgr := k } :=
    he.same rfl rfl
  have hinit := AlgoWrapper.guards_of_keymgr F.fails hkeymgr (initKeymgrSession W.outside)
  have hbody : Guards Bounded Bounded (W.body ecall) := by
    cases ecall with
    | initDataSource info => exact initDataSource_bounded info
    | beginParseDataItem =>
      exact F.beginParseDataItem hinit (fun _ he => he.same rfl rfl) (fun _ he => he.same rfl rfl)
    | parseDataItem inputParam =>
      exact F.parseDataItem (fun _ _ _ he => he.same rfl rfl) (fun _ _ _ he => he.same rfl rfl) _
    | endParseDataItem =>
      refine .bind (AlgoWrapper.guards_checkActualDataHash F.fails) fun _ => ?_
      refine .bind (AlgoWrapper.guards_generateResult F.fails F.results) fun _ => ?_
      exact .bind (.of_modify fun _ he => he.same rfl rfl) fun _ =>
        AlgoWrapper.guards_of_keymgr F.fails hkeymgr _
  refine AlgoWrapper.step_of_body (hbody.ends fun _ he => he) ?_ ?_ h fun _ => h
  · intro b e' he
    cases ecall <;> exact he.same rfl rfl
  · intro e' he
    exact he.same rfl rfl

end Bounded

section Members

theorem varsFrame (W : AlgoWrapper) (n : ℕ) (v : RequestVars) :
    W.Frame (fun e => e.calls = n ∧ e.vars = v) (fun e => e.calls = n ∧ e.vars = v) where
  fails _ he := he
  request _ := AlgoWrapper.guards_of_keymgr (fun _ he => he) (fun _ _ he => he) _
  verified _ _ _ _ he := he
  processed _ _ _ _ _ _ _ he := he
  results _ _ _ he := he

/-- The ecalls that do not parse leave the members of the request alone. -/
theorem vars_step {ecall : Ecall} (hquiet : ∀ inputParam, ecall ≠ .parseDataItem inputParam)
    (e : Enclave) : ¬ (W.step e ecall).crashed → (W.step e ecall).vars = e.vars := by
  have F := varsFrame W e.calls e.vars
  have hinit := AlgoWrapper.guards_of_keymgr F.fails (fun _ _ he => he)
    (initKeymgrSession W.outside)
  have hbody : Guards (fun e' => e'.calls = e.calls ∧ e'.vars = e.vars)
      (fun e' => e'.calls = e.calls ∧ e'.vars = e.vars) (W.body ecall) := by
    cases ecall with
    | initDataSource info => exact F.initDataSource (fun _ _ _ _ he => he) hinit info
    | beginParseDataItem => exact F.beginParseDataItem hinit (fun _ he => he) (fun _ he => he)
    | parseDataItem inputParam => exact absurd rfl (hquiet inputParam)
    | endParseDataItem =>
      refine .bind (AlgoWrapper.guards_checkActualDataHash F.fails) fun _ => ?_
      refine .bind (AlgoWrapper.guards_generateResult F.fails F.results) fun _ => ?_
      exact .bind (.of_modify fun _ he => he) fun _ =>
        AlgoWrapper.guards_of_keymgr F.fails (fun _ _ he => he) _
  refine @AlgoWrapper.step_of_contract W _ (fun e' => ¬ e'.crashed → e'.vars = e.vars) ecall e
    (hbody.weaken (fun _ he => he) ?_ ?_) (fun _ _ => rfl) (fun _ => ⟨rfl, rfl⟩)
  · intro _ e' he _
    cases ecall <;> exact he.2
  · intro stop e' he
    cases stop with
    | status error =>
      intro _
      cases ecall <;> exact he.2
    | crash => exact fun hrun => absurd rfl hrun

/-- The two members of a request that reach the host. -/
structure Holds (n : ℕ) (result dataHash : Stamped) (e : Enclave) : Prop where
  calls : e.calls = n
  result : e.vars.mResult = result
  dataHash : e.vars.mDataHash = dataHash

theorem holdsFrame (W : AlgoWrapper) (n : ℕ) (result dataHash : Stamped) :
    W.Frame (Holds n result dataHash) (Holds n result dataHash) where
  fails _ he := he
  request _ := AlgoWrapper.guards_of_keymgr (fun _ he => he)
    (fun _ _ he => ⟨he.calls, he.result, he.dataHash⟩) _
  verified _ _ _ _ he := ⟨he.calls, he.result, he.dataHash⟩
  processed _ _ _ _ _ _ _ he := ⟨he.calls, he.result, he.dataHash⟩
  results _ _ _ he := ⟨he.calls, he.result, he.dataHash⟩

variable {n : ℕ} {result dataHash : Stamped}

lemma guards_setVars (f : Enclave → RequestVars) (hresult : ∀ e, (f e).mResult = e.vars.mResult)
    (hhash : ∀ e, (f e).mDataHash = e.vars.mDataHash) :
    Guards (Holds n result dataHash) (Holds n result dataHash)
      (modify fun e => { e with vars := f e } : EnclaveM PUnit) :=
  .of_modify fun e he => ⟨he.calls, (hresult e).trans he.result, (hhash e).trans he.dataHash⟩

lemma requestRequesterKey_holds (pkey : Bytes) :
    Guards (Holds n result dataHash) (Holds n result dataHash) (W.requestRequesterKey pkey) := by
  refine .bind ((holdsFrame W n result dataHash).request pkey) fun answer => ?_
  cases answer with
  | unset error => exact .of_throw fun _ he => he
  | failed privateKey dianPkey error =>
    exact .bind (guards_setVars _ (fun _ => rfl) fun _ => rfl) fun _ => .of_throw fun _ he => he
  | granted privateKey dianPkey =>
    exact .bind (guards_setVars _ (fun _ => rfl) fun _ => rfl) fun _ => .of_pure

/-- The result is set last. -/
theorem parseDataItemImpl_holds (inputParam : Bytes) :
    Contract (Holds n result dataHash) (W.parseDataItemImpl inputParam)
      (fun _ e => e.calls = n ∧ e.vars.mResult.setBy = some n)
      (fun _ => Holds n result dataHash) := by
  have F := holdsFrame W n result dataHash
  have hparse (param : Bytes) : Guards (Holds n result dataHash) (Holds n result dataHash)
      (W.doParse param) :=
    F.doParse (fun _ _ _ he => ⟨he.calls, he.result, he.dataHash⟩) param
  unfold AlgoWrapper.parseDataItemImpl
  split
  · exact .of_throw fun _ he => he
  · split_ifs
    · refine .bind (F.checkAllowance _) fun _ => .bind (hparse _) fun made => .of_modify ?_
      intro e he
      exact ⟨he.calls, congrArg some he.calls⟩
    · refine .bind (guards_setVars _ (fun _ => rfl) fun _ => rfl) fun _ => ?_
      refine .bind (requestRequesterKey_holds _) fun privateKey => ?_
      refine .bind (F.decryptParam _ _ _) fun decryptedParam =>
        .bind (F.checkAllowance _) fun _ => ?_
      refine .bind (F.setForwardTargetInfo _) fun _ => ?_
      refine .bind (guards_setVars _ (fun _ => rfl) fun _ => rfl) fun _ => .bind (hparse _) ?_
      intro made
      refine .of_modify ?_
      intro e he
      exact ⟨he.calls, congrArg some he.calls⟩

/-- A `parse_data_item` that returns success has set both, one that returns an error neither. -/
theorem parseDataItem_holds (hkind : W.dataSession ≠ .noinputDataStream) (inputParam : Bytes) :
    Contract (Holds n result dataHash) (W.parseDataItem inputParam)
      (fun _ e => e.vars.mResult.setBy = some n ∧ e.vars.mDataHash.setBy = some n)
      (fun stop e => stop ≠ .crash → Holds n result dataHash e) := by
  refine .bind ((parseDataItemImpl_holds inputParam).weaken (fun _ he => he) (fun _ _ he => he)
    fun _ _ he _ => he) fun _ => ?_
  have hset (f : Enclave → Bytes) :
      Contract (fun e => e.calls = n ∧ e.vars.mResult.setBy = some n)
        (modify fun e => e.setDataHash (f e) : EnclaveM PUnit)
        (fun _ e => e.vars.mResult.setBy = some n ∧ e.vars.mDataHash.setBy = some n)
        (fun stop e => stop ≠ .crash → Holds n result dataHash e) :=
    .of_modify fun e he => ⟨he.2, congrArg some he.1⟩
  refine .get_bind ?_
  intro e he
  split
  · rename_i hno
    exact absurd hno hkind
  · exact (hset _).weaken (fun _ he' => he' ▸ he) (fun _ _ h => h) fun _ _ h => h
  · split
    · exact .of_throw fun _ _ hstop => absurd rfl hstop
    · exact (hset _).weaken (fun _ he' => he' ▸ he) (fun _ _ h => h) fun _ _ h => h
  · split
    · exact .of_throw fun _ _ hstop => absurd rfl hstop
    · exact (hset _).weaken (fun _ he' => he' ▸ he) (fun _ _ h => h) fun _ _ h => h

end Members

section History

lemma Verified.cons {older : List OutputEvent} {call : ℕ} (h : Verified older call)
    (event : OutputEvent) : Verified (event :: older) call := by
  obtain ⟨newer, middle, oldest, datasources, sources, rfl, hpassed⟩ := h
  exact ⟨event :: newer, middle, oldest, datasources, sources, rfl, hpassed⟩

lemma lastParsed_split {history : List OutputEvent} {call : ℕ} {sources : List ℕ}
    (h : lastParsed history = some (call, sources)) :
    ∃ newer oldest, history = newer ++ .parsed call sources :: oldest := by
  induction history with
  | nil => cases h
  | cons event history ih =>
    cases event with
    | parsed call' sources' =>
      cases h
      exact ⟨[], history, rfl⟩
    | checked datasources =>
      obtain ⟨newer, oldest, rfl⟩ := ih h
      exact ⟨.checked datasources :: newer, oldest, rfl⟩
    | generated requester made =>
      obtain ⟨newer, oldest, rfl⟩ := ih h
      exact ⟨.generated requester made :: newer, oldest, rfl⟩
    | sized size =>
      obtain ⟨newer, oldest, rfl⟩ := ih h
      exact ⟨.sized size :: newer, oldest, rfl⟩
    | returned result resultOf dataHashOf =>
      obtain ⟨newer, oldest, rfl⟩ := ih h
      exact ⟨.returned result resultOf dataHashOf :: newer, oldest, rfl⟩

lemma checkProviders_ok {providers : List Provider}
    (h : AlgoWrapper.checkProviders providers = .ok ()) :
    ∀ p ∈ providers, p.dataHash = p.mExpectDataHash := by
  induction providers with
  | nil => simp
  | cons p providers ih =>
    unfold AlgoWrapper.checkProviders at h
    split at h
    · cases h
    · rename_i hp
      intro q hq
      rcases List.mem_cons.mp hq with rfl | hq
      · unfold Provider.checkActualDataHash at hp
        split_ifs at hp with hhash
        exact not_not.mp hhash
      · exact ih h q hq

lemma checkActualDataHash_ok {e e' : Enclave} (h : W.checkActualDataHash e = .ok () e') :
    e' = e ∧ AlgoWrapper.checkProviders e.datasources = .ok () := by
  rw [AlgoWrapper.checkActualDataHash, get_bind] at h
  split_ifs at h
  · cases h
  · cases hcheck : AlgoWrapper.checkProviders e.datasources with
    | error error =>
      rw [hcheck] at h
      cases h
    | ok u =>
      rw [hcheck] at h
      cases h
      exact ⟨rfl, rfl⟩

lemma checkedSources_passed {e e' : Enclave} (h : W.checkActualDataHash e = .ok () e')
    (hbounded : Bounded e) {id : ℕ} (hid : id ∈ e.mDatasource) :
    ∃ p, (id, p) ∈ e.checkedSources ∧ p.dataHash = p.mExpectDataHash := by
  have hp := List.getElem?_eq_getElem (hbounded id hid)
  refine ⟨e.providers.get ⟨id, hbounded id hid⟩, ?_, ?_⟩
  · refine List.mem_filterMap.mpr ⟨id, hid, ?_⟩
    rw [hp]
    rfl
  · apply checkProviders_ok (checkActualDataHash_ok h).2
    exact List.mem_filterMap.mpr ⟨id, hid, hp⟩

/-- A check that succeeds while the sources of the latest parse are in place verifies it. -/
lemma verified_by_check {history : List OutputEvent} {e e' : Enclave} {last : ℕ × List ℕ}
    (h : W.checkActualDataHash e = .ok () e') (hbounded : Bounded e)
    (hlast : last ∈ lastParsed history) (hplace : last.2 ⊆ e.mDatasource) :
    Verified (.checked e.checkedSources :: history) last.1 := by
  obtain ⟨newer, oldest, rfl⟩ := lastParsed_split hlast
  exact ⟨[], newer, oldest, _, last.2, rfl,
    fun id hid => checkedSources_passed h hbounded (hplace hid)⟩

end History

/-- The members and the history of an enclave that lives go together, and what can be read from
the policy or after a check is verified. -/
structure OutputInv (s : Output) : Prop where
  result : ¬ s.enclave.crashed →
    s.enclave.vars.mResult.setBy = (lastParsed s.history).map Prod.fst
  dataHash : ¬ s.enclave.crashed →
    s.enclave.vars.mDataHash.setBy = (lastParsed s.history).map Prod.fst
  made : ∀ call ∈ s.madeFrom, Verified s.history call
  settled : parsePending s.history = false → ∀ last ∈ lastParsed s.history,
    Verified s.history last.1
  bounded : Bounded s.enclave

section Machine
variable {M : ResultMarshal} {s : Output}

/-- Events that neither parse nor check. -/
lemma OutputInv.log (h : OutputInv s) {event : OutputEvent}
    (hlast : lastParsed (event :: s.history) = lastParsed s.history)
    (hpending : parsePending (event :: s.history) = parsePending s.history) :
    OutputInv (s.log event) := by
  refine ⟨?_, ?_, fun call hcall => (h.made call hcall).cons event, ?_, h.bounded⟩
  · intro hrun
    rw [Output.log, hlast]
    exact h.result hrun
  · intro hrun
    rw [Output.log, hlast]
    exact h.dataHash hrun
  · intro hno last hmem
    rw [Output.log, hpending] at hno
    rw [Output.log, hlast] at hmem
    exact (h.settled hno last hmem).cons event

/-- Ecalls that leave the members alone. -/
lemma OutputInv.quiet (h : OutputInv s) (hrun : ¬ s.enclave.crashed) (ecall : Ecall)
    (hquiet : ∀ inputParam, ecall ≠ .parseDataItem inputParam) :
    OutputInv { s with enclave := W.step s.enclave ecall } := by
  have hvars := vars_step (W := W) hquiet s.enclave
  refine ⟨?_, ?_, h.made, h.settled, bounded_step _ _ h.bounded⟩
  · intro hlive
    change (W.step s.enclave ecall).vars.mResult.setBy = _
    rw [hvars hlive]
    exact h.result hrun
  · intro hlive
    change (W.step s.enclave ecall).vars.mDataHash.setBy = _
    rw [hvars hlive]
    exact h.dataHash hrun

theorem OutputInv.parse (hkind : W.dataSession ≠ .noinputDataStream) (h : OutputInv s)
    (hrun : ¬ s.enclave.crashed) (inputParam : Bytes) :
    OutputInv (W.outputParse s inputParam) := by
  have hbounded : Bounded (W.step s.enclave (.parseDataItem inputParam)) :=
    bounded_step _ _ h.bounded
  have hcontract := parseDataItem_holds (W := W) hkind inputParam s.enclave
    (⟨rfl, rfl, rfl⟩ : Holds s.enclave.calls s.enclave.vars.mResult s.enclave.vars.mDataHash
      s.enclave)
  unfold AlgoWrapper.outputParse
  dsimp only
  cases hparse : W.parseDataItem inputParam s.enclave with
  | ok u e =>
    rw [hparse] at hcontract
    have hstep : W.step s.enclave (.parseDataItem inputParam) =
        AlgoWrapper.returned (.parseDataItem inputParam) true e := by
      simp [AlgoWrapper.step, hrun, AlgoWrapper.body, hparse]
    refine ⟨?_, ?_, fun call hcall => (h.made call hcall).cons _, ?_, hbounded⟩
    · intro _
      change (W.step s.enclave (.parseDataItem inputParam)).vars.mResult.setBy = _
      rw [hstep]
      exact hcontract.1
    · intro _
      change (W.step s.enclave (.parseDataItem inputParam)).vars.mDataHash.setBy = _
      rw [hstep]
      exact hcontract.2
    · intro hno
      cases hno
  | error stop e =>
    rw [hparse] at hcontract
    cases stop with
    | status error =>
      have hholds := hcontract (by simp)
      have hstep : W.step s.enclave (.parseDataItem inputParam) =
          AlgoWrapper.returned (.parseDataItem inputParam) false e := by
        simp [AlgoWrapper.step, hrun, AlgoWrapper.body, hparse]
      refine ⟨?_, ?_, h.made, h.settled, hbounded⟩
      · intro _
        change (W.step s.enclave (.parseDataItem inputParam)).vars.mResult.setBy = _
        rw [hstep]
        exact (congrArg Stamped.setBy hholds.result).trans (h.result hrun)
      · intro _
        change (W.step s.enclave (.parseDataItem inputParam)).vars.mDataHash.setBy = _
        rw [hstep]
        exact (congrArg Stamped.setBy hholds.dataHash).trans (h.dataHash hrun)
    | crash =>
      have hcrashed : (W.step s.enclave (.parseDataItem inputParam)).crashed = true := by
        simp [AlgoWrapper.step, hrun, AlgoWrapper.body, hparse]
      exact ⟨fun hlive => absurd hcrashed hlive, fun hlive => absurd hcrashed hlive, h.made,
        h.settled, hbounded⟩

lemma OutputInv.generate (h : OutputInv s) : OutputInv (W.outputGenerate s) := by
  unfold AlgoWrapper.outputGenerate
  split
  · exact h.log rfl rfl
  · exact h

lemma outputGenerate_enclave (s : Output) : (W.outputGenerate s).enclave = s.enclave := by
  unfold AlgoWrapper.outputGenerate
  split <;> rfl

theorem OutputInv.ended (h : OutputInv s) (hrun : ¬ s.enclave.crashed)
    (hplace : SourcesInPlace s (.ecall .endParseDataItem)) : OutputInv (W.outputEnd s) := by
  have hquiet : ∀ inputParam, Ecall.endParseDataItem ≠ .parseDataItem inputParam :=
    fun _ heq => by cases heq
  unfold AlgoWrapper.outputEnd
  dsimp only
  cases hcheck : W.checkActualDataHash s.enclave with
  | error stop e => exact h.quiet hrun .endParseDataItem hquiet
  | ok u e =>
    have hverified : ∀ last ∈ lastParsed s.history,
        Verified (.checked s.enclave.checkedSources :: s.history) last.1 :=
      fun last hlast => verified_by_check hcheck h.bounded hlast (hplace last hlast)
    have hresult : ∀ call ∈ s.enclave.vars.mResult.setBy,
        Verified (.checked s.enclave.checkedSources :: s.history) call := by
      intro call hcall
      rw [h.result hrun] at hcall
      obtain ⟨last, hlast, rfl⟩ := Option.mem_map.mp hcall
      exact hverified last hlast
    have hmade : ∀ call ∈ W.madeBy s,
        Verified (.checked s.enclave.checkedSources :: s.history) call := by
      unfold AlgoWrapper.madeBy
      split
      · exact fun call hcall => (h.made call hcall).cons _
      · exact hresult
    have hchecked : OutputInv { s.log (.checked s.enclave.checkedSources) with
        madeFrom := W.madeBy s } := ⟨h.result, h.dataHash, hmade, fun _ => hverified, h.bounded⟩
    have hlive : ¬ (W.outputGenerate { s.log (.checked s.enclave.checkedSources) with
        madeFrom := W.madeBy s }).enclave.crashed := by
      rw [outputGenerate_enclave]
      exact hrun
    have hended := (hchecked.generate (W := W)).quiet (W := W) hlive .endParseDataItem hquiet
    unfold AlgoWrapper.outputGenerate at hended ⊢
    cases hmade : W.generateResult s.enclave with
    | ok u' e' => simpa only [Output.log, hmade] using hended
    | error stop e' => simpa only [Output.log, hmade] using hended

theorem outputInv_step (hkind : W.dataSession ≠ .noinputDataStream) (h : OutputInv s)
    {call : HostCall} (hplace : SourcesInPlace s call) : OutputInv (W.outputStep M s call) := by
  unfold AlgoWrapper.outputStep
  split_ifs with hrun
  · exact h
  · cases call with
    | ecall ecall =>
      cases ecall with
      | initDataSource info => exact h.quiet hrun _ fun _ heq => by cases heq
      | beginParseDataItem => exact h.quiet hrun _ fun _ heq => by cases heq
      | parseDataItem inputParam => exact h.parse hkind hrun inputParam
      | endParseDataItem => exact h.ended hrun hplace
    | getAnalyzeResultSize => exact h.log rfl rfl
    | getAnalyzeResult size =>
      dsimp only
      split
      · exact h
      · exact h.log rfl rfl

lemma outputInv_start (W : AlgoWrapper) : OutputInv W.outputStart := by
  refine ⟨fun _ => rfl, fun _ => rfl, ?_, ?_, ?_⟩
  · intro call hcall
    cases hcall
  · intro _ last hlast
    cases hlast
  · intro id hid
    cases hid

/-- A law about what is handed out is kept when it holds of the result that is handed out. -/
lemma justified_step {J : List OutputEvent → OutputEvent → Prop}
    (hJ : ∀ older event, (∀ result a b, event ≠ .returned result a b) → J older event)
    (h : Justified J s.history) {call : HostCall}
    (hget : ¬ s.enclave.crashed → ∀ size, call = .getAnalyzeResult size → ∀ result,
      J s.history (.returned result (W.resultOf s) (W.dataHashOf s))) :
    Justified J (W.outputStep M s call).history := by
  have hlog (older : List OutputEvent) (event : OutputEvent) (hold : Justified J older)
      (hevent : ∀ result a b, event ≠ .returned result a b) : Justified J (event :: older) :=
    ⟨hJ older event hevent, hold⟩
  unfold AlgoWrapper.outputStep
  split_ifs with hrun
  · exact h
  · cases call with
    | ecall ecall =>
      cases ecall with
      | initDataSource info => exact h
      | beginParseDataItem => exact h
      | parseDataItem inputParam =>
        dsimp only [AlgoWrapper.outputParse]
        split
        · exact hlog _ _ h fun _ _ _ heq => by cases heq
        · exact h
      | endParseDataItem =>
        dsimp only [AlgoWrapper.outputEnd]
        split
        · unfold AlgoWrapper.outputGenerate
          have hchecked := hlog s.history (.checked s.enclave.checkedSources) h
            fun _ _ _ heq => by cases heq
          split
          · exact hlog _ _ hchecked fun _ _ _ heq => by cases heq
          · exact hchecked
        · exact h
    | getAnalyzeResultSize => exact hlog _ _ h fun _ _ _ heq => by cases heq
    | getAnalyzeResult size =>
      dsimp only
      split
      · exact h
      · exact ⟨hget hrun size rfl _, h⟩

/-- The policies that encrypt hand out what they have made. -/
lemma OutputInv.made_verified (h : OutputInv s) (hpolicy : W.result ≠ .localResult) :
    ∀ call ∈ W.resultOf s, Verified s.history call := by
  unfold AlgoWrapper.resultOf
  split
  · rename_i hlocal
    exact absurd hlocal hpolicy
  · exact h.made

lemma OutputInv.last_verified (h : OutputInv s) (hno : parsePending s.history = false)
    {setBy : Option ℕ} (hset : setBy = (lastParsed s.history).map Prod.fst) :
    ∀ call ∈ setBy, Verified s.history call := by
  intro call hcall
  rw [hset] at hcall
  obtain ⟨last, hlast, rfl⟩ := Option.mem_map.mp hcall
  exact h.settled hno last hlast

lemma OutputInv.result_verified (h : OutputInv s) (hrun : ¬ s.enclave.crashed)
    (hno : parsePending s.history = false) : ∀ call ∈ W.resultOf s, Verified s.history call := by
  unfold AlgoWrapper.resultOf
  split
  · exact h.last_verified hno (h.result hrun)
  · exact h.made

lemma OutputInv.dataHash_verified (h : OutputInv s) (hrun : ¬ s.enclave.crashed)
    (hno : parsePending s.history = false) :
    ∀ call ∈ W.dataHashOf s, Verified s.history call := by
  have hset := h.last_verified hno (h.dataHash hrun)
  unfold AlgoWrapper.dataHashOf
  split
  · exact hset
  · exact hset
  · exact hset
  · exact fun call hcall => by cases hcall
  · exact fun call hcall => by cases hcall

lemma resultVerified_of_mem {older : List OutputEvent} {result : Bytes} {resultOf b : Option ℕ}
    (h : ∀ call ∈ resultOf, Verified older call) :
    ResultVerified older (.returned result resultOf b) := by
  cases resultOf with
  | none => trivial
  | some call => exact h call rfl

lemma dataHashVerified_of_mem {older : List OutputEvent} {result : Bytes}
    {a dataHashOf : Option ℕ} (h : ∀ call ∈ dataHashOf, Verified older call) :
    DataHashVerified older (.returned result a dataHashOf) := by
  cases dataHashOf with
  | none => trivial
  | some call => exact h call rfl

/-- In every run in which `end_parse_data_item` is only called while the sources of the latest
parse are in place: the result that a policy other than the local one hands out comes from a
verified parse. If moreover `get_analyze_result` is only called when a check has followed the
latest parse, then the results and data hashes that any policy hands out come from verified
parses. -/
theorem no_unverified_result (hkind : W.dataSession ≠ .noinputDataStream) (calls : List HostCall)
    (hplace : Along (W.outputStep M) SourcesInPlace W.outputStart calls) :
    (W.result ≠ .localResult →
      Justified ResultVerified (run (W.outputStep M) W.outputStart calls).history) ∧
    (Along (W.outputStep M) AsksAfterCheck W.outputStart calls →
      Justified ResultVerified (run (W.outputStep M) W.outputStart calls).history ∧
        Justified DataHashVerified (run (W.outputStep M) W.outputStart calls).history) := by
  have hresult : ∀ older event, (∀ result a b, event ≠ .returned result a b) →
      ResultVerified older event := by
    intro older event hevent
    cases event with
    | returned result a b => exact absurd rfl (hevent result a b)
    | _ => trivial
  have hdataHash : ∀ older event, (∀ result a b, event ≠ .returned result a b) →
      DataHashVerified older event := by
    intro older event hevent
    cases event with
    | returned result a b => exact absurd rfl (hevent result a b)
    | _ => trivial
  constructor
  · intro hpolicy
    refine (@run_invariant _ _ _ _ (fun s => OutputInv s ∧ Justified ResultVerified s.history)
      ?_ _ _ ⟨outputInv_start W, trivial⟩ hplace).2
    rintro s call ⟨hinv, hlaw⟩ hallowed
    refine ⟨outputInv_step hkind hinv hallowed, justified_step hresult hlaw ?_⟩
    intro _ size hcall result
    exact resultVerified_of_mem (hinv.made_verified hpolicy)
  · intro hasks
    refine (@run_invariant _ _ _ _ (fun s => OutputInv s ∧ Justified ResultVerified s.history ∧
      Justified DataHashVerified s.history) ?_ _ _ ⟨outputInv_start W, trivial, trivial⟩
      (hplace.and hasks)).2
    rintro s call ⟨hinv, hlaw, hlaw'⟩ ⟨hallowed, hchecked⟩
    refine ⟨outputInv_step hkind hinv hallowed, justified_step hresult hlaw ?_,
      justified_step hdataHash hlaw' ?_⟩
    · rintro hrun size rfl result
      exact resultVerified_of_mem (hinv.result_verified hrun hchecked)
    · rintro hrun size rfl result
      exact dataHashVerified_of_mem (hinv.dataHash_verified hrun hchecked)

end Machine

section Demo

/-- A local parser on raw data that returns its parameter without reading the data. -/
def localWrapper : AlgoWrapper :=
  { demoWrapper with
    dataSession := .rawDataStream
    result := .localResult
    dataAllowancePolicy := .ignoreDataAllowance }

def demoMarshal : ResultMarshal where
  onchain pkg := pkg.dataHash ++ pkg.encryptedResult ++ pkg.resultSignature ++ pkg.costSignature
  offchain pkg := pkg.encryptedResult ++ pkg.encryptedResultHash ++ pkg.dataHash ++
    pkg.resultSignature ++ pkg.costSignature ++ pkg.resultEncryptKey ++ pkg.pkey

/-- A request in the order of the host. -/
def demoCalls (dataHash : Bytes) (size : ℕ) : List HostCall :=
  [.ecall (.initDataSource dataHash), .ecall .beginParseDataItem,
    .ecall (.parseDataItem (demoInput 7 7 5)), .ecall .endParseDataItem, .getAnalyzeResult size]

theorem no_unverified_result_once :
    .returned (demoParam 7 7 5).paramData (some 2) none ∈
      (run (localWrapper.outputStep demoMarshal) localWrapper.outputStart
        (demoCalls demoDataHash 93)).history ∧
    Justified ResultVerified (run (localWrapper.outputStep demoMarshal) localWrapper.outputStart
      (demoCalls demoDataHash 93)).history := by
  refine ⟨by decide +kernel, ?_⟩
  have hplace : Along (localWrapper.outputStep demoMarshal) SourcesInPlace localWrapper.outputStart
      (demoCalls demoDataHash 93) := by
    refine ⟨trivial, trivial, trivial, ?_, trivial, trivial⟩
    unfold SourcesInPlace
    decide +kernel
  have hasks : Along (localWrapper.outputStep demoMarshal) AsksAfterCheck localWrapper.outputStart
      (demoCalls demoDataHash 93) := by
    refine ⟨trivial, trivial, trivial, trivial, ?_, trivial⟩
    unfold AsksAfterCheck
    decide +kernel
  have hkind : localWrapper.dataSession ≠ .noinputDataStream := by decide
  have hverified := no_unverified_result (W := localWrapper) (M := demoMarshal) hkind
    (demoCalls demoDataHash 93) hplace
  generalize run (localWrapper.outputStep demoMarshal) localWrapper.outputStart
    (demoCalls demoDataHash 93) = final at hverified ⊢
  exact (hverified.2 hasks).1

/-- The data does not have the expected hash and `end_parse_data_item` fails, but the local
result is handed out. -/
theorem local_result_after_failed_check :
    ¬ Justified ResultVerified (run (localWrapper.outputStep demoMarshal) localWrapper.outputStart
      (demoCalls [1] 93)).history := by
  have hhistory : (run (localWrapper.outputStep demoMarshal) localWrapper.outputStart
      (demoCalls [1] 93)).history =
      [.returned (demoParam 7 7 5).paramData (some 2) none, .parsed 2 [0]] := by decide +kernel
  rw [hhistory]
  rintro ⟨⟨newer, middle, oldest, datasources, sources, hsplit, -⟩, -⟩
  have hmem : OutputEvent.checked datasources ∈ [OutputEvent.parsed 2 [0]] := by
    rw [hsplit]
    simp
  simp at hmem

end Demo

end PrivacyComputing.Analyzer
