import PrivacyComputing.AnalyzerAllowance
import PrivacyComputing.KeyForwarding

/-! A request from end to end: the client encrypts its parameter, the enclave parses and generates
a result, and the client opens what it is sent back. -/
namespace PrivacyComputing.Analyzer
open Calls KeyForwarding

section Client
variable (c : CryptoPack)

/-- `single_data_onchain_result::generate_request`; a failure throws. -/
def generateRequest (rand param pubkey : Bytes) : Except StxError Bytes :=
  c.encryptMessageWithPrefix rand pubkey param cryptoPrefixArbitrary

/-- `single_data_onchain_result::decrypt_result`; a failure throws. -/
def decryptResult (result privateKey : Bytes) : Outcome Bytes :=
  c.decryptMessageWithPrefix privateKey result cryptoPrefixArbitrary

end Client

variable {W : AlgoWrapper}

section PutResults
variable (e : Enclave) (put : ResultVars → ResultVars)

@[simp] lemma putResults_vars : (e.putResults put).vars = e.vars := rfl

@[simp] lemma putResults_results : (e.putResults put).results = put e.results := rfl

@[simp] lemma putResults_costMsg : (e.putResults put).costMsg = e.costMsg := rfl

@[simp] lemma putResults_pkeyA : W.pkeyA (e.putResults put) = W.pkeyA e := rfl

end PutResults

namespace AlgoWrapper

section Generate
variable {e e' : Enclave}

lemma fill_ok {put : Bytes → ResultVars → ResultVars} {made : Enclave → Except StxError Bytes}
    (h : W.fill put made e = .ok () e') :
    ∃ output, made e = .ok output ∧ e' = e.putResults (put output) := by
  rw [fill, get_bind] at h
  cases hmade : made e with
  | error error =>
    rw [hmade] at h
    obtain ⟨_, t, _, hfail⟩ := exists_of_bind_ok h
    cases hfail
  | ok output =>
    rw [hmade] at h
    cases h
    exact ⟨output, rfl, rfl⟩

lemma fillOrThrow_ok {put : Bytes → ResultVars → ResultVars}
    {made : Enclave → Except StxError Bytes} (h : fillOrThrow put made e = .ok () e') :
    ∃ output, made e = .ok output ∧ e' = e.putResults (put output) := by
  rw [fillOrThrow, get_bind] at h
  cases hmade : made e with
  | error error =>
    rw [hmade] at h
    cases h
  | ok output =>
    rw [hmade] at h
    cases h
    exact ⟨output, rfl, rfl⟩

/-- What a result on the chain is made of. -/
theorem generateOnchain_ok (h : W.generateOnchain e = .ok () e') :
    e'.vars = e.vars ∧ e'.costMsg = e.costMsg ∧
      (∃ rand, W.crypto.encryptMessageWithPrefix rand e.vars.mPkey4v.value e.vars.mResult.value
        cryptoPrefixArbitrary = .ok e'.results.mEncryptedResultStr) ∧
      W.crypto.signMessage e.vars.mPrivateKey.value e.costMsg =
        .ok e'.results.mCostSignatureStr ∧
      W.crypto.signMessage e.vars.mPrivateKey.value
        (e.costMsg ++ e'.results.mEncryptedResultStr) = .ok e'.results.mResultSignatureStr := by
  obtain ⟨_, e₁, hfirst, h⟩ := exists_of_bind_ok h
  obtain ⟨cipher, hcipher, rfl⟩ := fill_ok hfirst
  obtain ⟨_, e₂, hsecond, h⟩ := exists_of_bind_ok h
  obtain ⟨cost, hcost, rfl⟩ := fill_ok hsecond
  obtain ⟨sig, hsig, rfl⟩ := fill_ok h
  exact ⟨rfl, rfl, ⟨_, hcipher⟩, hcost, hsig⟩

/-- What an off-chain result is made of, where `pkeyA` is the key of the requester. -/
theorem generateOffchain_ok (h : W.generateOffchain e = .ok () e') :
    e'.vars = e.vars ∧ e'.costMsg = e.costMsg ∧
      (∃ rand, W.crypto.encryptMessageWithPrefix rand W.internalPublicKey e.vars.mResult.value
        cryptoPrefixArbitrary = .ok e'.results.mEncryptedResultStr) ∧
      (∃ rand, W.crypto.encryptMessageWithPrefix rand (W.pkeyA e) W.internalPrivateKey
        cryptoPrefixArbitrary = .ok e'.results.mEncryptedTmpSkey) ∧
      e'.results.mTmpPkey = W.internalPublicKey ∧
      e'.results.mEncryptedResultHash = W.crypto.hash256 e'.results.mEncryptedResultStr ∧
      W.crypto.signMessage e.vars.mPrivateKey.value e.costMsg =
        .ok e'.results.mCostSignatureStr ∧
      W.crypto.signMessage e.vars.mPrivateKey.value e'.offchainMsg =
        .ok e'.results.mResultSignatureStr := by
  obtain ⟨_, e₁, hset, h⟩ := exists_of_bind_ok h
  cases hset
  obtain ⟨_, e₂, hfirst, h⟩ := exists_of_bind_ok h
  obtain ⟨cipher, hcipher, rfl⟩ := fill_ok hfirst
  obtain ⟨_, e₃, hhash, h⟩ := exists_of_bind_ok h
  cases hhash
  obtain ⟨_, e₄, hsecond, h⟩ := exists_of_bind_ok h
  obtain ⟨key, hkey, rfl⟩ := fillOrThrow_ok hsecond
  obtain ⟨_, e₅, hthird, h⟩ := exists_of_bind_ok h
  obtain ⟨cost, hcost, rfl⟩ := fill_ok hthird
  obtain ⟨sig, hsig, rfl⟩ := fill_ok h
  simp only [encryptArbitrary, putResults_pkeyA, putResults_vars, putResults_costMsg] at hkey hcost
  simp only [putResults_vars, putResults_costMsg, putResults_results]
  exact ⟨trivial, trivial, ⟨_, hcipher⟩, ⟨_, hkey⟩, trivial, trivial, hcost, hsig⟩

end Generate
section Parse
variable {e e' : Enclave}

/-- What an ecall does until its parser runs, which is then given the returned parameter. -/
def beforeDoParse (W : AlgoWrapper) (inputParam : Bytes) (p : Param) : EnclaveM Bytes := do
  modify fun e => e.setPkey4v p.pkey
  let privateKey ← W.requestRequesterKey p.pkey
  let decryptedParam ← W.decryptParam privateKey inputParam p.paramData
  W.checkAllowance { p with paramData := decryptedParam }
  W.setForwardTargetInfo { p with paramData := decryptedParam }
  modify fun e => e.setEncryptedParam p.paramData
  pure decryptedParam

theorem parseDataItem_eq (hpolicy : W.result ≠ .localResult) {inputParam : Bytes} {p : Param}
    (hinput : W.packages.param inputParam = some p) :
    W.parseDataItem inputParam = (do
      let param ← W.beforeDoParse inputParam p
      let result ← W.doParse param
      modify fun e => { e.setResult result with mCostGas := 0 }
      W.setDataHash) := by
  simp only [parseDataItem, parseDataItemImpl, hinput, if_neg hpolicy, beforeDoParse,
    parseEncrypted, bind_assoc, pure_bind]

/-- The inner calls before the parser runs leave alone the members of the request, the parser, the
sources and the number of the ecall. -/
theorem frame_request (W : AlgoWrapper) (v : RequestVars) (e₀ : Enclave) :
    Frame W (fun e => e.vars = v ∧ e.mParser = e₀.mParser ∧ e.calls = e₀.calls ∧
      ∀ ids, e.sources ids = e₀.sources ids) (fun _ => True) where
  fails _ _ := trivial
  request _ := guards_of_keymgr (fun _ _ => trivial) (fun _ _ h => h) _
  verified _ _ _ _ h := h
  processed _ _ _ _ n hp hsource h :=
    ⟨h.1, h.2.1, h.2.2.1, fun ids => (sources_putProvider hp hsource n ids).trans (h.2.2.2 ids)⟩
  results _ _ _ h := h

lemma setDataHash_ok (h : W.setDataHash e = .ok () e') :
    e'.vars.mPkey4v = e.vars.mPkey4v ∧ e'.vars.mPrivateKey = e.vars.mPrivateKey ∧
      e'.vars.mEncryptedParam = e.vars.mEncryptedParam ∧ e'.vars.mResult = e.vars.mResult := by
  rw [setDataHash, get_bind] at h
  cases hsession : W.dataSession with
  | noinputDataStream | multiDataStream =>
    rw [hsession] at h
    cases h
    exact ⟨rfl, rfl, rfl, rfl⟩
  | sealedDataStream | rawDataStream =>
    rw [hsession] at h
    cases hsources : e.datasources with
    | nil =>
      simp only [hsources] at h
      cases h
    | cons p ps =>
      simp only [hsources] at h
      cases h
      exact ⟨rfl, rfl, rfl, rfl⟩

lemma requestRequesterKey_ok {pkey privateKey : Bytes}
    (h : W.requestRequesterKey pkey e = .ok privateKey e') :
    W.crypto.generatePkeyFromSkey privateKey = .ok pkey ∧
      e'.vars.mPkey4v = e.vars.mPkey4v ∧ e'.vars.mPrivateKey.value = privateKey ∧
      e'.mParser = e.mParser ∧ e'.calls = e.calls ∧ ∀ ids, e'.sources ids = e.sources ids := by
  obtain ⟨answer, e₁, hanswer, h⟩ := exists_of_bind_ok h
  have hframe := ((frame_request W e.vars e).request pkey).ok ⟨rfl, rfl, rfl, fun _ => rfl⟩ hanswer
  have hgranted := (requestPrivateKey_granted pkey).ok trivial hanswer
  cases answer with
  | unset error => cases h
  | failed privateKey dianPkey error =>
    obtain ⟨_, e₂, _, h⟩ := exists_of_bind_ok h
    cases h
  | granted privateKey dianPkey =>
    cases h
    have hset : e₁.vars.mPkey4v = e.vars.mPkey4v := congrArg RequestVars.mPkey4v hframe.1
    exact ⟨(hgranted _ _ rfl).1, hset, rfl, hframe.2⟩

lemma decryptParam_ok {privateKey inputParam paramData param : Bytes}
    (h : W.decryptParam privateKey inputParam paramData e = .ok param e') :
    W.crypto.decryptMessageWithPrefix privateKey paramData cryptoPrefixArbitrary = .ok param ∧
      e' = e := by
  unfold decryptParam at h
  split_ifs at h
  · cases h
  · cases hdecrypt : W.crypto.decryptMessageWithPrefix privateKey paramData
      cryptoPrefixArbitrary with
    | throws =>
      rw [hdecrypt] at h
      cases h
    | err error =>
      rw [hdecrypt] at h
      cases h
    | ok output =>
      rw [hdecrypt] at h
      cases h
      exact ⟨rfl, rfl⟩

/-- The state that the parser is started on. -/
theorem beforeDoParse_ok {inputParam param : Bytes} {p : Param}
    (h : W.beforeDoParse inputParam p e = .ok param e') :
    W.crypto.decryptMessageWithPrefix e'.vars.mPrivateKey.value p.paramData
        cryptoPrefixArbitrary = .ok param ∧
      W.crypto.generatePkeyFromSkey e'.vars.mPrivateKey.value = .ok p.pkey ∧
      e'.vars.mPkey4v.value = p.pkey ∧ e'.vars.mEncryptedParam.value = p.paramData ∧
      e'.mParser = e.mParser ∧ e'.calls = e.calls ∧ ∀ ids, e'.sources ids = e.sources ids := by
  rw [beforeDoParse, modify_bind] at h
  obtain ⟨privateKey, e₁, hkey, hafterKey⟩ := exists_of_bind_ok h
  obtain ⟨hpkey, hset, hvalue, hrest⟩ := requestRequesterKey_ok hkey
  obtain ⟨decrypted, e₂, hopen, hafterOpen⟩ := exists_of_bind_ok hafterKey
  obtain ⟨hdecrypt, rfl⟩ := decryptParam_ok hopen
  have F := frame_request W e₂.vars e
  obtain ⟨_, e₃, hallow, hafterAllow⟩ := exists_of_bind_ok hafterOpen
  have hframe₃ := (F.checkAllowance _).ok ⟨rfl, hrest⟩ hallow
  obtain ⟨_, e₄, htarget, hafterTarget⟩ := exists_of_bind_ok hafterAllow
  obtain ⟨hvars₄, hrest₄⟩ := (F.setForwardTargetInfo _).ok hframe₃ htarget
  cases hafterTarget
  have hprivate : (e₄.setEncryptedParam p.paramData).vars.mPrivateKey.value = privateKey := by
    simp only [Enclave.setEncryptedParam, hvars₄, hvalue]
  have hpkey4v : (e₄.setEncryptedParam p.paramData).vars.mPkey4v.value = p.pkey := by
    simp only [Enclave.setEncryptedParam, hvars₄, hset]
    rfl
  rw [hprivate]
  exact ⟨hdecrypt, hpkey, hpkey4v, rfl, hrest₄⟩

/-- In the ecall that has led from `e₀` to `e₁` the parser, as it was created and on its sources,
has been run on `param`, and what it returned is in the members with the number of this ecall. -/
def ParserReturned (W : AlgoWrapper) (inputParam : Bytes) (p : Param) (e₀ e₁ : Enclave)
    (param result : Bytes) : Prop :=
  ∃ e e', W.beforeDoParse inputParam p e₀ = .ok param e ∧ e.mParser = e₀.mParser ∧
    e.calls = e₀.calls ∧ (∀ ids, e.sources ids = e₀.sources ids) ∧
    W.doParse param e = .ok result e' ∧ e₁.vars.mResult = ⟨result, some e₀.calls⟩

/-- What the members hold after a parse: the key of the requester, its parameter as it was sent, and
what the parser returned for that parameter. -/
theorem parseDataItem_ok (hpolicy : W.result ≠ .localResult) {inputParam : Bytes} {p : Param}
    (hinput : W.packages.param inputParam = some p)
    (h : W.parseDataItem inputParam e = .ok () e') :
    ∃ param, ParserReturned W inputParam p e e' param e'.vars.mResult.value ∧
      W.crypto.decryptMessageWithPrefix e'.vars.mPrivateKey.value p.paramData
        cryptoPrefixArbitrary = .ok param ∧
      W.crypto.generatePkeyFromSkey e'.vars.mPrivateKey.value = .ok p.pkey ∧
      e'.vars.mPkey4v.value = p.pkey ∧ e'.vars.mEncryptedParam.value = p.paramData := by
  rw [parseDataItem_eq hpolicy hinput] at h
  obtain ⟨param, e₁, hbefore, hafter⟩ := exists_of_bind_ok h
  obtain ⟨hdecrypt, hpkey, hset, hencrypted, hparser, hcalls, hsources⟩ := beforeDoParse_ok hbefore
  obtain ⟨result, e₂, hparse, hend⟩ := exists_of_bind_ok hafter
  obtain ⟨hvars, -, hsame, -⟩ := ((frame_request W e₁.vars e₁).doParse (fun _ _ _ h => h) param).ok
    ⟨rfl, rfl, rfl, fun _ => rfl⟩ hparse
  rw [modify_bind] at hend
  obtain ⟨hpkey4v', hprivate', hencrypted', hresult'⟩ := setDataHash_ok hend
  have hresult : e'.vars.mResult = ⟨result, some e.calls⟩ := by
    rw [hresult', ← hcalls, ← hsame]
    rfl
  have hprivate : e'.vars.mPrivateKey = e₁.vars.mPrivateKey := by
    rw [hprivate', ← hvars]
    rfl
  have hpkey4v : e'.vars.mPkey4v = e₁.vars.mPkey4v := by
    rw [hpkey4v', ← hvars]
    rfl
  have hparam : e'.vars.mEncryptedParam = e₁.vars.mEncryptedParam := by
    rw [hencrypted', ← hvars]
    rfl
  rw [hprivate, hpkey4v, hparam]
  refine ⟨param, ⟨e₁, e₂, hbefore, hparser, hcalls, hsources, ?_, ?_⟩, hdecrypt, hpkey, hset,
    hencrypted⟩
  · rw [hresult]
    exact hparse
  · rw [hresult]

end Parse
section End
variable {e e' : Enclave}

lemma checkActualDataHash_ok (h : W.checkActualDataHash e = .ok () e') : e' = e := by
  rw [checkActualDataHash, get_bind] at h
  split_ifs at h
  · cases h
  · cases hcheck : checkProviders e.datasources with
    | error error =>
      rw [hcheck] at h
      cases h
    | ok _ =>
      rw [hcheck] at h
      cases h
      rfl

/-- The end of a parse is `generate_result`, for what is read of the enclave afterwards. -/
theorem endParseDataItem_ok (h : W.endParseDataItem e = .ok () e') :
    ∃ e₁, W.generateResult e = .ok () e₁ ∧ e'.results = e₁.results ∧ e'.costMsg = e₁.costMsg ∧
      e'.offchainMsg = e₁.offchainMsg := by
  obtain ⟨_, e₀, hcheck, hrest⟩ := exists_of_bind_ok h
  rw [checkActualDataHash_ok hcheck] at hrest
  obtain ⟨_, e₁, hgenerate, hclose⟩ := exists_of_bind_ok hrest
  rw [modify_bind] at hclose
  refine ⟨e₁, hgenerate, ?_⟩
  unfold onKeymgr zoom at hclose
  split at hclose
  · cases hclose
    exact ⟨rfl, rfl, rfl⟩
  · cases hclose

end End

end AlgoWrapper

section Answered
variable {skey pkey rand param request inputParam : Bytes} {allowances : List Allowance}
  {forward : ForwardTarget} {e₀ e₁ e₂ : Enclave}

/-- What the parser has returned when an ecall has parsed a request that a client has made: it ran
on the parameter of the client, with the key of the client in the members. -/
theorem parsed_request (hc : Correct W.crypto) (hpolicy : W.result ≠ .localResult)
    (hrequest : generateRequest W.crypto rand param pkey = .ok request)
    (hinput : W.packages.param inputParam = some ⟨request, pkey, allowances, forward⟩)
    (hparse : W.parseDataItem inputParam e₀ = .ok () e₁) :
    W.ParserReturned inputParam ⟨request, pkey, allowances, forward⟩ e₀ e₁ param
        e₁.vars.mResult.value ∧
      W.crypto.generatePkeyFromSkey e₁.vars.mPrivateKey.value = .ok pkey ∧
      e₁.vars.mPkey4v.value = pkey ∧ e₁.vars.mEncryptedParam.value = request := by
  obtain ⟨param', hreturned, hdecrypt, hprivate, hset, hencrypted⟩ :=
    AlgoWrapper.parseDataItem_ok hpolicy hinput hparse
  rw [hc.decrypt_encrypt rand _ pkey param _ request hprivate hrequest] at hdecrypt
  cases hdecrypt
  exact ⟨hreturned, hprivate, hset, hencrypted⟩

/-- When a client's request has been parsed and its result generated for the chain, the client opens
what the parser returned for its parameter, and both signatures verify under its public key. -/
theorem onchain_request_is_answered (hc : Correct W.crypto) (hpolicy : W.result = .onchainResult)
    (hpkey : W.crypto.generatePkeyFromSkey skey = .ok pkey)
    (hrequest : generateRequest W.crypto rand param pkey = .ok request)
    (hinput : W.packages.param inputParam = some ⟨request, pkey, allowances, forward⟩)
    (hparse : W.parseDataItem inputParam e₀ = .ok () e₁)
    (hend : W.endParseDataItem e₁ = .ok () e₂) :
    ∃ result, W.ParserReturned inputParam ⟨request, pkey, allowances, forward⟩ e₀ e₁ param result ∧
      decryptResult W.crypto e₂.results.mEncryptedResultStr skey = .ok result ∧
      W.crypto.verifySignature e₂.costMsg e₂.results.mCostSignatureStr pkey = .ok () ∧
      W.crypto.verifySignature (e₂.costMsg ++ e₂.results.mEncryptedResultStr)
        e₂.results.mResultSignatureStr pkey = .ok () := by
  have hlocal : W.result ≠ .localResult := by simp [hpolicy]
  obtain ⟨hreturned, hprivate, hset, -⟩ := parsed_request hc hlocal hrequest hinput hparse
  obtain ⟨e₃, hgenerate, hresults, hcost, -⟩ := AlgoWrapper.endParseDataItem_ok hend
  simp only [AlgoWrapper.generateResult, hpolicy] at hgenerate
  obtain ⟨-, hmsg, ⟨rand', hcipher⟩, hcostSig, hsig⟩ := AlgoWrapper.generateOnchain_ok hgenerate
  rw [hset] at hcipher
  rw [hresults, hcost, hmsg]
  refine ⟨e₁.vars.mResult.value, hreturned, ?_, ?_, ?_⟩
  · exact hc.decrypt_encrypt rand' skey pkey _ _ _ hpkey hcipher
  · exact hc.verify_sign _ pkey _ _ hprivate hcostSig
  · exact hc.verify_sign _ pkey _ _ hprivate hsig

/-- When the result is generated off the chain, the client opens a private key with its own, and
with that key what the parser returned; the hash and both signatures are right. -/
theorem offchain_request_is_answered (hc : Correct W.crypto) (hpolicy : W.result = .offchainResult)
    (hinternal : W.crypto.generatePkeyFromSkey W.internalPrivateKey = .ok W.internalPublicKey)
    (hpkey : W.crypto.generatePkeyFromSkey skey = .ok pkey)
    (hrequest : generateRequest W.crypto rand param pkey = .ok request)
    (hinput : W.packages.param inputParam = some ⟨request, pkey, allowances, forward⟩)
    (hparse : W.parseDataItem inputParam e₀ = .ok () e₁)
    (hend : W.endParseDataItem e₁ = .ok () e₂) :
    ∃ result tmpSkey,
      W.ParserReturned inputParam ⟨request, pkey, allowances, forward⟩ e₀ e₁ param result ∧
      decryptResult W.crypto e₂.results.mEncryptedTmpSkey skey = .ok tmpSkey ∧
      W.crypto.generatePkeyFromSkey tmpSkey = .ok e₂.results.mTmpPkey ∧
      decryptResult W.crypto e₂.results.mEncryptedResultStr tmpSkey = .ok result ∧
      e₂.results.mEncryptedResultHash = W.crypto.hash256 e₂.results.mEncryptedResultStr ∧
      W.crypto.verifySignature e₂.costMsg e₂.results.mCostSignatureStr pkey = .ok () ∧
      W.crypto.verifySignature e₂.offchainMsg e₂.results.mResultSignatureStr pkey = .ok () := by
  have hlocal : W.result ≠ .localResult := by simp [hpolicy]
  obtain ⟨hreturned, hprivate, -, -⟩ := parsed_request hc hlocal hrequest hinput hparse
  obtain ⟨e₃, hgenerate, hresults, hcost, hmsg⟩ := AlgoWrapper.endParseDataItem_ok hend
  simp only [AlgoWrapper.generateResult, hpolicy] at hgenerate
  obtain ⟨-, hsame, ⟨rand', hcipher⟩, ⟨rand'', hexport⟩, htmp, hhash, hcostSig, hsig⟩ :=
    AlgoWrapper.generateOffchain_ok hgenerate
  have hpkeyA : W.pkeyA e₁ = pkey := by rw [AlgoWrapper.pkeyA, hprivate]
  rw [hpkeyA] at hexport
  rw [hresults, hcost, hmsg, hsame]
  refine ⟨e₁.vars.mResult.value, W.internalPrivateKey, hreturned, ?_, ?_, ?_, hhash, ?_, ?_⟩
  · exact hc.decrypt_encrypt rand'' skey pkey _ _ _ hpkey hexport
  · rw [hinternal, htmp]
  · exact hc.decrypt_encrypt rand' _ _ _ _ _ hinternal hcipher
  · exact hc.verify_sign _ pkey _ _ hprivate hcostSig
  · exact hc.verify_sign _ pkey _ _ hprivate hsig

end Answered
section Demo

/-- The state that an ecall leaves behind. -/
def reached : EStateM.Result Stop Enclave Unit → Enclave
  | .ok _ e => e
  | .error _ e => e

def returns : EStateM.Result Stop Enclave Unit → Bool
  | .ok _ _ => true
  | .error _ _ => false

lemma eq_ok_of_returns {r : EStateM.Result Stop Enclave Unit} (h : returns r = true) :
    r = .ok () (reached r) := by
  cases r with
  | ok _ e => rfl
  | error _ e => cases h

def requestReady (W : AlgoWrapper) : Enclave :=
  Runs.run W.step W.start [.initDataSource [5], .beginParseDataItem]

def requestParsed (W : AlgoWrapper) : Enclave :=
  reached (W.parseDataItem (demoInput 7 7 5) (requestReady W))

def requestEnded (W : AlgoWrapper) : Enclave := reached (W.endParseDataItem (requestParsed W))

lemma demo_request : generateRequest CryptoPack.plain [] [7] (demoPkey 7) =
    .ok (demoParam 7 7 5).paramData := by
  decide +kernel

/-- The requester `7` asks with the parameter `[7]`. -/
theorem onchain_request_is_answered_once : ∃ result,
    demoWrapper.ParserReturned (demoInput 7 7 5) (demoParam 7 7 5) (requestReady demoWrapper)
      (requestParsed demoWrapper) [7] result ∧
    decryptResult CryptoPack.plain (requestEnded demoWrapper).results.mEncryptedResultStr
      (demoSkey 7) = .ok result ∧
    CryptoPack.plain.verifySignature (requestEnded demoWrapper).costMsg
      (requestEnded demoWrapper).results.mCostSignatureStr (demoPkey 7) = .ok () ∧
    CryptoPack.plain.verifySignature
      ((requestEnded demoWrapper).costMsg ++ (requestEnded demoWrapper).results.mEncryptedResultStr)
      (requestEnded demoWrapper).results.mResultSignatureStr (demoPkey 7) = .ok () :=
  onchain_request_is_answered (W := demoWrapper) plain_correct rfl (by decide +kernel)
    demo_request (show demoPackages.param (demoInput 7 7 5) = _ from rfl)
    (eq_ok_of_returns (by decide +kernel)) (eq_ok_of_returns (by decide +kernel))

def demoOffchain : AlgoWrapper := { demoWrapper with result := .offchainResult }

theorem offchain_request_is_answered_once : ∃ result tmpSkey,
    demoOffchain.ParserReturned (demoInput 7 7 5) (demoParam 7 7 5) (requestReady demoOffchain)
      (requestParsed demoOffchain) [7] result ∧
    decryptResult CryptoPack.plain (requestEnded demoOffchain).results.mEncryptedTmpSkey
      (demoSkey 7) = .ok tmpSkey ∧
    CryptoPack.plain.generatePkeyFromSkey tmpSkey =
      .ok (requestEnded demoOffchain).results.mTmpPkey ∧
    decryptResult CryptoPack.plain (requestEnded demoOffchain).results.mEncryptedResultStr
      tmpSkey = .ok result ∧
    (requestEnded demoOffchain).results.mEncryptedResultHash =
      CryptoPack.plain.hash256 (requestEnded demoOffchain).results.mEncryptedResultStr ∧
    CryptoPack.plain.verifySignature (requestEnded demoOffchain).costMsg
      (requestEnded demoOffchain).results.mCostSignatureStr (demoPkey 7) = .ok () ∧
    CryptoPack.plain.verifySignature (requestEnded demoOffchain).offchainMsg
      (requestEnded demoOffchain).results.mResultSignatureStr (demoPkey 7) = .ok () :=
  offchain_request_is_answered (W := demoOffchain) plain_correct rfl (by decide +kernel)
    (by decide +kernel) demo_request (show demoPackages.param (demoInput 7 7 5) = _ from rfl)
    (eq_ok_of_returns (by decide +kernel)) (eq_ok_of_returns (by decide +kernel))

end Demo
end PrivacyComputing.Analyzer
