import PrivacyComputing.Analyzer

/-! `generate_result` of the result policies, and the ecalls of the parser enclave as steps
of one machine. -/
namespace PrivacyComputing.Analyzer
open Calls Channel DataProvider Runs LittleEndian

/-- `m_cost_gas` as it is signed: eight bytes, most significant first. -/
def costGasStr (costGas : ℕ) : Bytes := (encode 8 costGas).reverse

def Enclave.costMsg (e : Enclave) : Bytes :=
  e.vars.mEncryptedParam.value ++ e.vars.mDataHash.value ++ e.mEnclaveHash ++ costGasStr e.mCostGas

/-- What the off-chain policies sign. -/
def Enclave.offchainMsg (e : Enclave) : Bytes :=
  e.results.mEncryptedTmpSkey ++ e.results.mEncryptedResultHash ++ e.vars.mEncryptedParam.value ++
    e.vars.mDataHash.value ++ costGasStr e.mCostGas ++ e.mEnclaveHash

def Enclave.putResults (e : Enclave) (put : ResultVars → ResultVars) : Enclave :=
  { e with results := put e.results, draws := e.draws + 1 }

inductive Ecall
  | initDataSource (dataSourceInfo : Bytes)
  | beginParseDataItem
  | parseDataItem (inputParam : Bytes)
  | endParseDataItem
  deriving DecidableEq, Repr

namespace AlgoWrapper
variable (W : AlgoWrapper)

section Results

def setResults (put : ResultVars → ResultVars) : EnclaveM Unit :=
  modify fun e => e.putResults put

/-- A call of the crypto pack that makes its output in a member. The buffer is there already
when the call fails. -/
def fill (put : Bytes → ResultVars → ResultVars) (made : Enclave → Except StxError Bytes) :
    EnclaveM Unit := do
  let e ← get
  match made e with
  | .error error => do
    setResults (put (W.outside.unsetBuffer e.keymgr.tick))
    failWith error
  | .ok output => setResults (put output)

/-- The same where a failure throws. -/
def fillOrThrow (put : Bytes → ResultVars → ResultVars) (made : Enclave → Except StxError Bytes) :
    EnclaveM Unit := do
  let e ← get
  match made e with
  | .error _ => crash
  | .ok output => setResults (put output)

def encryptArbitrary (e : Enclave) (pkey data : Bytes) : Except StxError Bytes :=
  W.crypto.encryptMessageWithPrefix (W.rand e.draws) pkey data cryptoPrefixArbitrary

/-- The public key of the requester as the off-chain policies derive it, whatever the status
of `generate_pkey_from_skey`. -/
def pkeyA (e : Enclave) : Bytes :=
  match W.crypto.generatePkeyFromSkey e.vars.mPrivateKey.value with
  | .error _ => W.outside.unsetBuffer e.keymgr.tick
  | .ok pkey => pkey

def signCost : EnclaveM Unit :=
  W.fill (fun sig r => { r with mCostSignatureStr := sig }) fun e =>
    W.crypto.signMessage e.vars.mPrivateKey.value e.costMsg

def signResult (msg : Enclave → Bytes) : EnclaveM Unit :=
  W.fill (fun sig r => { r with mResultSignatureStr := sig }) fun e =>
    W.crypto.signMessage e.vars.mPrivateKey.value (msg e)

def generateOnchain : EnclaveM Unit := do
  W.fill (fun cipher r => { r with mEncryptedResultStr := cipher }) fun e =>
    W.encryptArbitrary e e.vars.mPkey4v.value e.vars.mResult.value
  W.signCost
  W.signResult fun e => e.costMsg ++ e.results.mEncryptedResultStr

def generateOffchain : EnclaveM Unit := do
  setResults fun r => { r with mTmpPkey := W.internalPublicKey }
  W.fill (fun cipher r => { r with mEncryptedResultStr := cipher }) fun e =>
    W.encryptArbitrary e W.internalPublicKey e.vars.mResult.value
  setResults fun r => { r with mEncryptedResultHash := W.crypto.hash256 r.mEncryptedResultStr }
  fillOrThrow (fun cipher r => { r with mEncryptedTmpSkey := cipher }) fun e =>
    W.encryptArbitrary e (W.pkeyA e) W.internalPrivateKey
  W.signCost
  W.signResult Enclave.offchainMsg

def generateOffchainFile : EnclaveM Unit := do
  let e ← get
  match W.packages.offchainResult e.vars.mResult.value with
  | none => crash
  | some pkg => do
    setResults fun r => { r with
      mEncryptedResultHash := pkg.encryptedResultHash
      mTmpPkey := pkg.pkey }
    W.fill (fun cipher r => { r with mEncryptedResultStr := cipher }) fun e =>
      W.encryptArbitrary e pkg.pkey pkg.encryptedResult
    W.fill (fun cipher r => { r with mEncryptedTmpSkey := cipher }) fun e =>
      W.encryptArbitrary e (W.pkeyA e) pkg.resultEncryptKey
    W.signCost
    W.signResult Enclave.offchainMsg

/-- `forward_internal_key` and the package around it; a failure throws. -/
def forwardPackage (e : Enclave) : Except StxError Bytes := do
  let target := e.results.mTargetDianPkey
  let encryptedSkey ← W.crypto.encryptMessageWithPrefix (W.rand e.draws) target
    W.internalPrivateKey cryptoPrefixForward
  let sig ← W.crypto.signMessage W.internalPrivateKey (target ++ e.results.mTargetEnclaveHash)
  pure (W.packages.forwardResult {
    pkey := W.internalPublicKey
    encryptedShuSkey := encryptedSkey
    shuForwardSignature := sig
    enclaveHash := e.results.mTargetEnclaveHash
    dataHash := W.crypto.hash256 (W.crypto.hash256 fidelius ++ e.vars.mResult.value)
    encryptedResult := e.results.mEncryptedResultStr })

def generateForward : EnclaveM Unit := do
  let e ← get
  if e.results.mTargetEnclaveHash.length = 0 then failWith .forwardTargetNotSet
  else do
    W.fill (fun cipher r => { r with mEncryptedResultStr := cipher }) fun e =>
      W.encryptArbitrary e W.internalPublicKey (W.packages.batchDataPkg [e.vars.mResult.value])
    fillOrThrow (fun pkg r => { r with mResultBytes := pkg }) W.forwardPackage

def generateResult : EnclaveM Unit :=
  match W.result with
  | .localResult => pure ()
  | .onchainResult => W.generateOnchain
  | .offchainResult => W.generateOffchain
  | .offchainFileResult => W.generateOffchainFile
  | .forwardResult => W.generateForward

end Results

def endParseDataItem : EnclaveM Unit := do
  W.checkActualDataHash
  W.generateResult
  modify fun e => e.log (.generated e.vars)
  onKeymgr (closeKeymgrSession W.outside)

def body : Ecall → EnclaveM Unit
  | .initDataSource dataSourceInfo => W.initDataSource dataSourceInfo
  | .beginParseDataItem => W.beginParseDataItem
  | .parseDataItem inputParam => W.parseDataItem inputParam
  | .endParseDataItem => W.endParseDataItem

/-- The state after an ecall has returned. -/
def returned (ecall : Ecall) (success : Bool) (e : Enclave) : Enclave :=
  match ecall with
  | .parseDataItem _ => { e.log (.parsed e.calls success) with calls := e.calls + 1 }
  | _ => { e with calls := e.calls + 1 }

/-- Once an ecall has crashed the enclave, nothing runs in it any more. -/
def step (e : Enclave) (ecall : Ecall) : Enclave :=
  if e.crashed then e
  else
    match W.body ecall e with
    | .ok () e' => returned ecall true e'
    | .error (.status _) e' => returned ecall false e'
    | .error .crash e' => { e' with crashed := true }

/-- A new enclave. `m_cost_gas` is not set by a constructor. -/
def start : Enclave where
  keymgr := Keymgr.start
  mEnclaveHash := []
  providers := []
  mDatasource := []
  mDsUsePkey := if W.dataSession = .sealedDataStream then [[]] else []
  mParser := none
  vars := ⟨⟨[], none⟩, ⟨[], none⟩, ⟨[], none⟩, ⟨[], none⟩, ⟨[], none⟩⟩
  mCostGas := W.memory 0
  results := ⟨[], [], [], [], [], [], [], [], []⟩
  batches := 0
  draws := 0
  calls := 0
  crashed := false
  audit := []

end AlgoWrapper

section Demo

/-- In the transparent pack every byte names a key pair. -/
def demoSkey (a : UInt8) : Bytes := List.replicate privateKeySize a
def demoPkey (a : UInt8) : Bytes := List.replicate publicKeySize a

/-- The hash of a source from which nothing has been read. -/
def demoDataHash : Bytes := CryptoPack.plain.hash256 fidelius

def demoEnclaveHash : Bytes := List.replicate 32 3

/-- The answer of an honest key manager to the request for a public key. -/
def demoResponse (req : SecureMessage) : SecureMessage :=
  let iv := nonce (.ofNat (decode (req.reserved.take 4) + 1))
  let payload := req.payload.take privateKeySize ++ demoPkey 6
  ⟨req.sessionId, .ofNat payload.length, iv, plainTag demoKey iv payload, payload⟩

/-- A host that serves every call. -/
def demoOutside : Outside where
  dhInitSession _ := .ok ()
  sessionRequest _ := .ok ([], 0)
  procMsg1 _ _ := .ok []
  exchangeReport _ _ _ := .ok []
  procMsg3 _ _ := .ok (demoKey, demoId)
  sendRequest _ req := .ok (demoResponse req)
  endSession _ _ := .ok ()
  unsetBuffer _ := []

/-- A parameter `[a]` of the requester `a`, encrypted to the key `r`, with an allowance of the
owner `b`. -/
def demoParam (a r b : UInt8) : Param where
  paramData := CryptoPack.plainEnvelope (demoSkey r) cryptoPrefixArbitrary ++ [a]
  pkey := demoPkey a
  allowances := [⟨demoSkey b ++ (CryptoPack.plain.hash256 [a] ++ demoEnclaveHash ++ demoPkey 6 ++
    demoDataHash), demoPkey b, demoDataHash⟩]
  forward := ⟨[], [], []⟩

/-- Packages in which three bytes name a parameter and one byte names a source. -/
def demoPackages : Packages where
  sealedDataInfo
    | a :: _ => some ⟨demoDataHash, demoPkey a⟩
    | [] => none
  multiSealedDataInfo bs := some (bs.map fun a => ⟨demoDataHash, demoPkey a⟩)
  param
    | a :: r :: b :: _ => some (demoParam a r b)
    | _ => none
  batchData _ := none
  offchainResult _ := none
  batchDataPkg := List.flatten
  forwardResult _ := []
  requestSkeyFromPkey := id

/-- A sealed source with an allowance check, an on-chain result and a parser that returns its
parameter. -/
def demoWrapper : AlgoWrapper where
  crypto := CryptoPack.plain
  ethSgxCrypto := CryptoPack.plain
  gcm := Gcm.plain
  outside := demoOutside
  packages := demoPackages
  dataSession := .sealedDataStream
  result := .onchainResult
  dataAllowancePolicy := .checkDataAllowance
  parser _ param := .done param
  enclaveHash := demoEnclaveHash
  internalPrivateKey := demoSkey 8
  internalPublicKey := demoPkey 8
  nextDataBatch _ _ := .ocallFails
  rand _ := []
  memory _ := 0

def demoInput (a r b : UInt8) : Bytes := [a, r, b] ++ List.replicate 9 0

/-- One request in the order of the host: on the data of `5`, for the requester `7`. -/
def demoEcalls : List Ecall :=
  [.initDataSource [5], .beginParseDataItem, .parseDataItem (demoInput 7 7 5), .endParseDataItem]

end Demo
end PrivacyComputing.Analyzer
