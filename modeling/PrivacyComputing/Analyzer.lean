import Mathlib.Data.List.Sort
import PrivacyComputing.DataProvider
import PrivacyComputing.KeymgrSession

/-! The parser enclave: the members of `algo_wrapper`, its data sources, the allowance
check and the run of the parser. -/
namespace PrivacyComputing.Analyzer
open Calls Channel DataProvider Runs

inductive DataSession
  | sealedDataStream | multiDataStream | rawDataStream | noinputDataStream
  deriving DecidableEq, Repr

inductive ResultPolicy
  | localResult | onchainResult | offchainResult | offchainFileResult | forwardResult
  deriving DecidableEq, Repr

inductive DataAllowancePolicy
  | checkDataAllowance | ignoreDataAllowance
  deriving DecidableEq, Repr

structure Allowance where
  signature : Bytes
  pkey : Bytes
  dataHash : Bytes
  deriving DecidableEq, Repr

structure ForwardTarget where
  enclaveHash : Bytes
  pkey : Bytes
  encryptedSig : Bytes
  deriving DecidableEq, Repr

structure Param where
  paramData : Bytes
  pkey : Bytes
  allowances : List Allowance
  forward : ForwardTarget
  deriving DecidableEq, Repr

structure SealedDataInfo where
  dataHash : Bytes
  pkey : Bytes
  deriving DecidableEq, Repr

/-- The members of `offchain_result_package_t` that `offchain_file_result` reads. -/
structure OffchainPackage where
  encryptedResult : Bytes
  encryptedResultHash : Bytes
  resultEncryptKey : Bytes
  pkey : Bytes
  deriving DecidableEq, Repr

/-- `forward_result_t` with its `shu_info_t` unfolded. -/
structure ForwardPackage where
  pkey : Bytes
  encryptedShuSkey : Bytes
  shuForwardSignature : Bytes
  enclaveHash : Bytes
  dataHash : Bytes
  encryptedResult : Bytes
  deriving DecidableEq, Repr

/-- The marshalling of the packages; `from_bytes` may throw. -/
structure Packages where
  sealedDataInfo : Bytes → Option SealedDataInfo
  multiSealedDataInfo : Bytes → Option (List SealedDataInfo)
  param : Bytes → Option Param
  batchData : Bytes → Option (List Bytes)
  offchainResult : Bytes → Option OffchainPackage
  batchDataPkg : List Bytes → Bytes
  forwardResult : ForwardPackage → Bytes
  requestSkeyFromPkey : Bytes → Bytes

/-- What a parser does in `do_parse`: it works on the sources it was created on and may ask
its context for keys. A source is named by its place among them. -/
inductive Task
  | done (result : Bytes)
  | throws
  | process (source : ℕ) (next : Bool → Task)
  | outputValue (source : ℕ) (next : Bytes → Task)
  | dataHash (source : ℕ) (next : Bytes → Task)
  | requestKey (pubkey : Bytes) (next : KeyAnswer → Task)

/-- An instance of `algo_wrapper` and what it runs with. Raw sources always use
`eth_sgx_crypto`. `parser` is given the number of the ecall, `nextDataBatch`, `rand` and
`memory` the number of their use. -/
structure AlgoWrapper where
  crypto : CryptoPack
  ethSgxCrypto : CryptoPack
  gcm : Gcm
  outside : Outside
  packages : Packages
  dataSession : DataSession
  result : ResultPolicy
  dataAllowancePolicy : DataAllowancePolicy
  parser : ℕ → Bytes → Task
  enclaveHash : Bytes
  internalPrivateKey : Bytes
  internalPublicKey : Bytes
  nextDataBatch : ℕ → Bytes → BatchAnswer
  rand : ℕ → Bytes
  memory : ℕ → ℕ

/-- A member variable together with the ecall that has last set it. -/
structure Stamped where
  value : Bytes
  setBy : Option ℕ
  deriving DecidableEq, Repr

/-- `request_key_var`, `encrypted_param_var`, `result_var` and `data_hash_var`. -/
structure RequestVars where
  mPkey4v : Stamped
  mPrivateKey : Stamped
  mEncryptedParam : Stamped
  mResult : Stamped
  mDataHash : Stamped
  deriving DecidableEq, Repr

/-- The members of the result policies. -/
structure ResultVars where
  mEncryptedResultStr : Bytes
  mCostSignatureStr : Bytes
  mResultSignatureStr : Bytes
  mEncryptedResultHash : Bytes
  mTmpPkey : Bytes
  mEncryptedTmpSkey : Bytes
  mTargetEnclaveHash : Bytes
  mTargetDianPkey : Bytes
  mResultBytes : Bytes
  deriving DecidableEq, Repr

/-- Whose data a source gives, if it is a sealed one, and the hash it was opened for. -/
structure Source where
  owner : Option Bytes
  dataHash : Bytes
  deriving DecidableEq, Repr

/-- `verified` is a signature that `check_allowance` accepted, `doParse` the start of the
parser, `parsed` the return of `parse_data_item`, `generated` the return of success from
`generate_result`. -/
inductive AuditEvent
  | verified (call : ℕ) (pkey message signature : Bytes)
  | doParse (call : ℕ) (param : Bytes) (sources : List Source)
  | parsed (call : ℕ) (success : Bool)
  | generated (vars : RequestVars)
  deriving DecidableEq, Repr

/-- `providers` holds all data sources ever made, `mDatasource` and `mParser` refer to them
by their place. A single `m_ds_use_pkey` is a list with one member. -/
structure Enclave where
  keymgr : Keymgr
  mEnclaveHash : Bytes
  providers : List Provider
  mDatasource : List ℕ
  mDsUsePkey : List Bytes
  mParser : Option (List ℕ)
  vars : RequestVars
  mCostGas : ℕ
  results : ResultVars
  batches : ℕ
  draws : ℕ
  calls : ℕ
  crashed : Bool
  audit : List AuditEvent
  deriving DecidableEq, Repr

abbrev EnclaveM := EStateM Stop Enclave

def onKeymgr (m : KeymgrM α) : EnclaveM α :=
  zoom Enclave.keymgr (fun e k => { e with keymgr := k }) m

def failWith (error : StxError) : EnclaveM α := throw (.status error)

def crash : EnclaveM α := throw .crash

def Enclave.log (e : Enclave) (event : AuditEvent) : Enclave := { e with audit := event :: e.audit }

def Enclave.stamp (e : Enclave) (value : Bytes) : Stamped := ⟨value, some e.calls⟩

def Enclave.setPkey4v (e : Enclave) (value : Bytes) : Enclave :=
  { e with vars := { e.vars with mPkey4v := e.stamp value } }

def Enclave.setPrivateKey (e : Enclave) (value : Bytes) : Enclave :=
  { e with vars := { e.vars with mPrivateKey := e.stamp value } }

def Enclave.setEncryptedParam (e : Enclave) (value : Bytes) : Enclave :=
  { e with vars := { e.vars with mEncryptedParam := e.stamp value } }

def Enclave.setResult (e : Enclave) (value : Bytes) : Enclave :=
  { e with vars := { e.vars with mResult := e.stamp value } }

def Enclave.setDataHash (e : Enclave) (value : Bytes) : Enclave :=
  { e with vars := { e.vars with mDataHash := e.stamp value } }

/-- `m_datasource.reset(...)`. -/
def Enclave.resetDatasource (e : Enclave) (p : Provider) : Enclave :=
  { e with providers := e.providers ++ [p], mDatasource := [e.providers.length] }

/-- `m_datasource.push_back(...)`. -/
def Enclave.pushDatasource (e : Enclave) (p : Provider) : Enclave :=
  { e with providers := e.providers ++ [p], mDatasource := e.mDatasource ++ [e.providers.length] }

def Enclave.putProvider (e : Enclave) (id : ℕ) (p : Provider) (batches : ℕ) : Enclave :=
  { e with providers := e.providers.set id p, batches := batches }

def Enclave.datasources (e : Enclave) : List Provider := e.mDatasource.filterMap (e.providers[·]?)

def providerSource (p : Provider) : Source :=
  match p.kind with
  | .sealed _ pkey => ⟨some pkey, p.mExpectDataHash⟩
  | .raw => ⟨none, p.mExpectDataHash⟩

/-- The sources at the given places. -/
def Enclave.sources (e : Enclave) (ids : List ℕ) : List Source :=
  (ids.filterMap (e.providers[·]?)).map providerSource

namespace AlgoWrapper
variable (W : AlgoWrapper)

def requestPrivateKey (pubkey : Bytes) : EnclaveM KeyAnswer :=
  onKeymgr (requestPrivateKeyForPublicKey W.crypto W.gcm W.outside W.packages.requestSkeyFromPkey
    pubkey)

/-- A key request into local variables, returning early on an error. -/
def requestKey (pubkey : Bytes) : EnclaveM (Bytes × Bytes) := do
  let answer ← W.requestPrivateKey pubkey
  match answer with
  | .unset error | .failed _ _ error => failWith error
  | .granted privateKey dianPkey => pure (privateKey, dianPkey)

section DataInterface

def sealedDataProvider (e : Enclave) (dataHash privateKey : Bytes) : Provider :=
  DataProvider.new W.crypto
    (sealedKind W.crypto privateKey (W.outside.unsetBuffer e.keymgr.tick)) dataHash
    (W.memory e.providers.length)

def rawDataProvider (e : Enclave) (dataHash : Bytes) : Provider :=
  DataProvider.new W.ethSgxCrypto .raw dataHash (W.memory e.providers.length)

def providerCrypto (p : Provider) : CryptoPack :=
  match p.kind with
  | .sealed .. => W.crypto
  | .raw => W.ethSgxCrypto

def initSealedDataSource (pkg : SealedDataInfo) : EnclaveM Unit := do
  onKeymgr (initKeymgrSession W.outside)
  let keys ← W.requestKey pkg.pkey
  modify fun e =>
    { e.resetDatasource (W.sealedDataProvider e pkg.dataHash keys.1) with
      mDsUsePkey := [pkg.pkey ++ pkg.dataHash] }

/-- One round of the loop over the infos of several sources. -/
def pushSource (sdi : SealedDataInfo) : EnclaveM Unit :=
  if sdi.pkey.length ≠ 0 then do
    let keys ← W.requestKey sdi.pkey
    modify fun e =>
      { e.pushDatasource (W.sealedDataProvider e sdi.dataHash keys.1) with
        mDsUsePkey := e.mDsUsePkey ++ [sdi.pkey ++ sdi.dataHash] }
  else modify fun e => e.pushDatasource (W.rawDataProvider e sdi.dataHash)

def pushSources : List SealedDataInfo → EnclaveM Unit
  | [] => pure ()
  | sdi :: infos => do
    W.pushSource sdi
    pushSources infos

def initMultiDataSource (infos : List SealedDataInfo) : EnclaveM Unit := do
  onKeymgr (initKeymgrSession W.outside)
  W.pushSources infos

def initDataSource (dataSourceInfo : Bytes) : EnclaveM Unit :=
  match W.dataSession with
  | .sealedDataStream =>
    match W.packages.sealedDataInfo dataSourceInfo with
    | none => crash
    | some pkg => W.initSealedDataSource pkg
  | .multiDataStream =>
    match W.packages.multiSealedDataInfo dataSourceInfo with
    | none => crash
    | some infos => W.initMultiDataSource infos
  | .rawDataStream => modify fun e => e.resetDatasource (W.rawDataProvider e dataSourceInfo)
  | .noinputDataStream => failWith .noSuchFeature

def checkProviders : List Provider → Status
  | [] => .ok ()
  | p :: ps =>
    match p.checkActualDataHash with
    | .error error => .error error
    | .ok () => checkProviders ps

/-- A single source is used through its pointer, which may be null. -/
def checkActualDataHash : EnclaveM Unit := do
  let e ← get
  if (W.dataSession = .sealedDataStream ∨ W.dataSession = .rawDataStream) ∧ e.mDatasource = [] then
    crash
  else
    match checkProviders e.datasources with
    | .error error => failWith error
    | .ok () => pure ()

/-- The bytes that `hash_256` gets for several sources: their hashes in descending order. -/
def jointBytes (hashes : List Bytes) : Bytes :=
  (hashes.insertionSort fun a b => b ≤ a).flatten

def setDataHash : EnclaveM Unit := do
  let e ← get
  match W.dataSession with
  | .noinputDataStream => pure ()
  | .multiDataStream =>
    modify fun e =>
      e.setDataHash (W.crypto.hash256 (jointBytes (e.datasources.map Provider.dataHash)))
  | .sealedDataStream | .rawDataStream =>
    match e.datasources with
    | [] => crash
    | p :: _ => modify fun e => e.setDataHash p.dataHash

def createParser : EnclaveM Unit := do
  let e ← get
  if W.dataSession ≠ .noinputDataStream ∧ e.mDatasource = [] then failWith .dataSourceNotSet
  else modify fun e => { e with mParser := some e.mDatasource }

end DataInterface

section Allowances

/-- `allowance<Crypto>::check`. -/
def allowanceCheck (privateKey msg allow : Bytes) : Status :=
  match W.crypto.generatePkeyFromSkey privateKey with
  | .error error => .error error
  | .ok pkey => W.crypto.verifySignature msg allow pkey

/-- The signature check for one entry. A failed check is ignored. -/
def verifyEntry (paramHash : Bytes) (entry : Allowance) (keys : Bytes × Bytes) :
    EnclaveM (List Bytes) := do
  let e ← get
  let toCheckData := paramHash ++ e.mEnclaveHash ++ keys.2 ++ entry.dataHash
  match W.allowanceCheck keys.1 toCheckData entry.signature with
  | .error _ => pure []
  | .ok () => do
    modify fun e => e.log (.verified e.calls entry.pkey toCheckData entry.signature)
    pure [entry.pkey ++ entry.dataHash]

/-- One round of the loop of `check_allowance`: what it adds to `checked_pkey`. -/
def checkEntry (paramHash : Bytes) (entry : Allowance) : EnclaveM (List Bytes) :=
  if entry.pkey.length = 0 then pure []
  else do
    let keys ← W.requestKey entry.pkey
    if entry.signature.length = 0 then pure [] else W.verifyEntry paramHash entry keys

def checkEntries (paramHash : Bytes) : List Allowance → EnclaveM (List Bytes)
  | [] => pure []
  | entry :: entries => do
    let checked ← W.checkEntry paramHash entry
    let others ← checkEntries paramHash entries
    pure (checked ++ others)

/-- The message of a single source about a missing allowance reads the data source. -/
def checkAllowanceD (checkedPkey : List Bytes) : EnclaveM Unit := do
  let e ← get
  match W.dataAllowancePolicy, W.dataSession with
  | .checkDataAllowance, .sealedDataStream =>
    if ∀ pkey ∈ e.mDsUsePkey, pkey ∈ checkedPkey then pure ()
    else if e.mDatasource = [] then crash
    else failWith .dataAllowanceMiss
  | .checkDataAllowance, .multiDataStream =>
    if ∀ pkey ∈ e.mDsUsePkey, pkey ∈ checkedPkey then pure () else failWith .dataAllowanceMiss
  | _, _ => pure ()

def checkAllowance (param : Param) : EnclaveM Unit := do
  let checkedPkey ← W.checkEntries (W.crypto.hash256 param.paramData) param.allowances
  W.checkAllowanceD checkedPkey

def setForwardTargetInfo (param : Param) : EnclaveM Unit :=
  match W.result with
  | .forwardResult => do
    let keys ← W.requestKey param.pkey
    let e ← get
    let toCheckData := param.paramData ++ e.mEnclaveHash ++ keys.2 ++ param.forward.enclaveHash ++
      param.forward.pkey
    match W.allowanceCheck keys.1 toCheckData param.forward.encryptedSig with
    | .error _ => failWith .forwardAllowanceInvalid
    | .ok () => modify fun e => { e with results := { e.results with
        mTargetEnclaveHash := param.forward.enclaveHash
        mTargetDianPkey := param.forward.pkey } }
  | _ => pure ()

end Allowances

section DoParse

/-- A parser on a single source holds a plain pointer, which dangles once the source has been
replaced. -/
def sourceId (ids : List ℕ) (source : ℕ) : EnclaveM ℕ := do
  let e ← get
  match ids[source]? with
  | none => crash
  | some id =>
    if W.dataSession = .multiDataStream ∨ id ∈ e.mDatasource then pure id else crash

def withSource (ids : List ℕ) (source : ℕ) (read : Provider → Option α) : EnclaveM α := do
  let id ← W.sourceId ids source
  let e ← get
  match e.providers[id]?.bind read with
  | none => crash
  | some a => pure a

def processSource (ids : List ℕ) (source : ℕ) : EnclaveM Bool := do
  let id ← W.sourceId ids source
  let e ← get
  match e.providers[id]? with
  | none => crash
  | some p =>
    let processed := p.process (W.providerCrypto p) W.packages.batchData
      (fun key n => (W.nextDataBatch n key, n + 1)) e.batches
    modify fun e => e.putProvider id processed.2.1 processed.2.2
    if processed.1 = .threw then crash else pure processed.1.isTrue

def runTask (ids : List ℕ) : Task → EnclaveM Bytes
  | .done result => pure result
  | .throws => crash
  | .process source next => do
    let more ← W.processSource ids source
    runTask ids (next more)
  | .outputValue source next => do
    let item ← W.withSource ids source Provider.outputValue
    runTask ids (next item)
  | .dataHash source next => do
    let hash ← W.withSource ids source fun p => some p.dataHash
    runTask ids (next hash)
  | .requestKey pubkey next => do
    let answer ← W.requestPrivateKey pubkey
    runTask ids (next answer)

def doParse (param : Bytes) : EnclaveM Bytes := do
  let e ← get
  match e.mParser with
  | none => crash
  | some ids => do
    modify fun e => e.log (.doParse e.calls param (e.sources ids))
    W.runTask ids (W.parser e.calls param)

end DoParse

section AlgoInterface

/-- The request for the key of the requester, straight into `m_private_key`. -/
def requestRequesterKey (pkey : Bytes) : EnclaveM Bytes := do
  let answer ← W.requestPrivateKey pkey
  match answer with
  | .unset error => failWith error
  | .failed privateKey _ error => do
    modify fun e => e.setPrivateKey privateKey
    failWith error
  | .granted privateKey _ => do
    modify fun e => e.setPrivateKey privateKey
    pure privateKey

/-- The first buffer for the parameter is sized after the whole input, and that throws when
the input is shorter than an IV. -/
def decryptParam (privateKey inputParam paramData : Bytes) : EnclaveM Bytes :=
  if inputParam.length < 12 then crash
  else
    match W.crypto.decryptMessageWithPrefix privateKey paramData cryptoPrefixArbitrary with
    | .throws => crash
    | .err error => failWith error
    | .ok decryptedParam => pure decryptedParam

/-- `parse_data_item_impl` with an encrypted parameter, once the requester is known. -/
def parseEncrypted (inputParam : Bytes) (param : Param) : EnclaveM Unit := do
  let privateKey ← W.requestRequesterKey param.pkey
  let decryptedParam ← W.decryptParam privateKey inputParam param.paramData
  W.checkAllowance { param with paramData := decryptedParam }
  W.setForwardTargetInfo { param with paramData := decryptedParam }
  modify fun e => e.setEncryptedParam param.paramData
  let result ← W.doParse decryptedParam
  modify fun e => { e.setResult result with mCostGas := 0 }

/-- `parse_data_item_impl` with a plain parameter. -/
def parsePlain (param : Param) : EnclaveM Unit := do
  W.checkAllowance param
  let result ← W.doParse param.paramData
  modify fun e => e.setResult result

def parseDataItemImpl (inputParam : Bytes) : EnclaveM Unit :=
  match W.packages.param inputParam with
  | none => crash
  | some param =>
    if W.result = .localResult then W.parsePlain param
    else do
      modify fun e => e.setPkey4v param.pkey
      W.parseEncrypted inputParam param

def parseDataItem (inputParam : Bytes) : EnclaveM Unit := do
  W.parseDataItemImpl inputParam
  W.setDataHash

def beginParseDataItem : EnclaveM Unit := do
  modify fun e => { e with mEnclaveHash := W.enclaveHash }
  onKeymgr (initKeymgrSession W.outside)
  W.createParser

end AlgoInterface

end AlgoWrapper
end PrivacyComputing.Analyzer
