import PrivacyComputing.AnalyzerDelivery
import PrivacyComputing.DataFeed

/-! A result that is forwarded to another enclave, from `generate_result` of the one to the data
source of the other: on its way are the package, the key manager of the target and the host. -/
namespace PrivacyComputing.Analyzer
open Calls DataProvider KeyForwarding KeyManager

variable {W : AlgoWrapper}

/-- What `generate_result` has put into the package for the target. -/
structure Forwarded (W : AlgoWrapper) (e : Enclave) (pkg : ForwardPackage) : Prop where
  pkey : pkg.pkey = W.internalPublicKey
  enclaveHash : pkg.enclaveHash = e.results.mTargetEnclaveHash
  dataHash : pkg.dataHash = W.crypto.hash256 (W.crypto.hash256 fidelius ++ e.vars.mResult.value)
  key : ∃ rand, encryptAndSign W.crypto rand W.internalPrivateKey e.results.mTargetDianPkey
    e.results.mTargetEnclaveHash = .ok (pkg.encryptedShuSkey, pkg.shuForwardSignature)
  result : ∃ rand, W.crypto.encryptMessageWithPrefix rand W.internalPublicKey
    (W.packages.batchDataPkg [e.vars.mResult.value]) cryptoPrefixArbitrary =
      .ok pkg.encryptedResult

/-- The package is made in one piece: a failure of the encryption or of the signature throws. -/
theorem forwardPackage_ok {e : Enclave} {bytes : Bytes} (h : W.forwardPackage e = .ok bytes) :
    ∃ rand encrypted sig, encryptAndSign W.crypto rand W.internalPrivateKey
        e.results.mTargetDianPkey e.results.mTargetEnclaveHash = .ok (encrypted, sig) ∧
      bytes = W.packages.forwardResult {
        pkey := W.internalPublicKey
        encryptedShuSkey := encrypted
        shuForwardSignature := sig
        enclaveHash := e.results.mTargetEnclaveHash
        dataHash := W.crypto.hash256 (W.crypto.hash256 fidelius ++ e.vars.mResult.value)
        encryptedResult := e.results.mEncryptedResultStr } := by
  unfold AlgoWrapper.forwardPackage at h
  dsimp only at h
  cases hencrypt : W.crypto.encryptMessageWithPrefix (W.rand e.draws) e.results.mTargetDianPkey
    W.internalPrivateKey cryptoPrefixForward with
  | error error =>
    rw [hencrypt] at h
    cases h
  | ok encrypted =>
    rw [hencrypt] at h
    cases hsign : W.crypto.signMessage W.internalPrivateKey
      (e.results.mTargetDianPkey ++ e.results.mTargetEnclaveHash) with
    | error error =>
      simp only [bind, Except.bind, hsign] at h
      cases h
    | ok sig =>
      simp only [bind, Except.bind, hsign] at h
      cases h
      refine ⟨W.rand e.draws, encrypted, sig, ?_, rfl⟩
      rw [encryptAndSign, hencrypt]
      simp only [hsign]

theorem generateForward_ok {e e' : Enclave} (h : W.generateForward e = .ok () e') :
    ∃ pkg, e'.results.mResultBytes = W.packages.forwardResult pkg ∧ Forwarded W e pkg := by
  rw [AlgoWrapper.generateForward, get_bind] at h
  split_ifs at h
  · cases h
  · obtain ⟨_, e₁, hfirst, hrest⟩ := exists_of_bind_ok h
    obtain ⟨cipher, hcipher, rfl⟩ := AlgoWrapper.fill_ok hfirst
    obtain ⟨bytes, hbytes, rfl⟩ := AlgoWrapper.fillOrThrow_ok hrest
    obtain ⟨rand, encrypted, sig, hkey, rfl⟩ := forwardPackage_ok hbytes
    exact ⟨_, rfl, rfl, rfl, rfl, ⟨rand, hkey⟩, ⟨_, hcipher⟩⟩

/-- A key manager with the private key of the dian key takes in the key of the package, and from
then on gives it to the target enclave, whatever else it is asked. -/
def KeyArrives (c : CryptoPack) (pkg : ForwardPackage) (privateKey dianSkey dianPkey : Bytes) :
    Prop :=
  ∀ (t : KeyTable) (beyond : Bytes), t.privateKeyTable (pkg.pkey ++ pkg.enclaveHash) = none →
    t.forwardResult c (registration pkg.encryptedShuSkey dianPkey pkg.enclaveHash
      pkg.shuForwardSignature dianSkey beyond) = .ok () ∧
    ∀ (calls : List KeyManager.Call) (peer : Measurement), peer.1 = pkg.enclaveHash →
      (Runs.run (KeyTable.step c) (t.forwardPrivateKey c (registration pkg.encryptedShuSkey
        dianPkey pkg.enclaveHash pkg.shuForwardSignature dianSkey beyond)) calls).lookup c
          pkg.pkey peer = some ⟨privateKey, dianPkey⟩

/-- A source with this key, on the data that the package names, reads `result` and nothing else,
and its data has the hash that the package gives. -/
def ResultArrives (c : CryptoPack) (decode : Bytes → Option (List Bytes)) (pkg : ForwardPackage)
    (privateKey result : Bytes) : Prop :=
  ∀ {H : Type} (nextDataBatch : Bytes → H → BatchAnswer × H) (h h₁ h₂ : H) (error : StxError)
    (unset : Bytes) (memory : ℕ),
    nextDataBatch (pkg.dataHash ++ pkg.pkey) h = (.batch pkg.encryptedResult, h₁) →
    nextDataBatch (pkg.dataHash ++ pkg.pkey) h₁ = (.status error, h₂) →
    ∃ p₁ p₂, (DataProvider.new c (sealedKind c privateKey unset) pkg.dataHash memory).process c
        decode nextDataBatch h = (.accepted [result], p₁, h₁) ∧
      p₁.outputValue = some result ∧
      p₁.process c decode nextDataBatch h₁ = (.ended, p₂, h₂) ∧
      p₂.checkActualDataHash = .ok ()

section Arrival
variable {e : Enclave} {pkg : ForwardPackage}

theorem keyArrives_of_forwarded (hc : Correct W.crypto)
    (hinternal : W.crypto.generatePkeyFromSkey W.internalPrivateKey = .ok W.internalPublicKey)
    {dianSkey : Bytes}
    (hdian : W.crypto.generatePkeyFromSkey dianSkey = .ok e.results.mTargetDianPkey)
    (h : Forwarded W e pkg) :
    KeyArrives W.crypto pkg W.internalPrivateKey dianSkey e.results.mTargetDianPkey := by
  obtain ⟨rand, hkey⟩ := h.key
  have hproduced : Produced W.crypto W.internalPrivateKey e.results.mTargetDianPkey pkg.enclaveHash
      pkg.encryptedShuSkey pkg.shuForwardSignature := by
    rw [h.enclaveHash]
    have hmade : (⟨W.internalPrivateKey, W.internalPublicKey, hinternal⟩ :
        InternalKeyVar W.crypto).forwardInternalKey rand e.results.mTargetDianPkey
          e.results.mTargetEnclaveHash = .ok ⟨W.internalPublicKey, pkg.encryptedShuSkey,
            pkg.shuForwardSignature, e.results.mTargetEnclaveHash⟩ := by
      rw [InternalKeyVar.forwardInternalKey, hkey]
      rfl
    exact .enclave _ rand _ rfl hmade
  intro t beyond hfree
  rw [h.pkey] at hfree ⊢
  obtain ⟨hresult, htable⟩ := registration_accepted hc hinternal hdian hproduced beyond t hfree
  refine ⟨hresult, ?_⟩
  intro calls peer hpeer
  have hentry := congrFun htable (W.internalPublicKey ++ pkg.enclaveHash)
  rw [Function.update_self] at hentry
  rw [KeyTable.lookup, hpeer, entry_stays hentry calls]

theorem resultArrives_of_forwarded (hc : Correct W.crypto)
    (hinternal : W.crypto.generatePkeyFromSkey W.internalPrivateKey = .ok W.internalPublicKey)
    (hbatch : W.packages.batchData (W.packages.batchDataPkg [e.vars.mResult.value]) =
      some [e.vars.mResult.value]) (h : Forwarded W e pkg) :
    ResultArrives W.crypto W.packages.batchData pkg W.internalPrivateKey e.vars.mResult.value := by
  obtain ⟨rand, hcipher⟩ := h.result
  have hopen := hc.decrypt_encrypt rand _ _ _ _ _ hinternal hcipher
  have hhash : HashChain.extend W.crypto.hash256 (W.crypto.hash256 fidelius)
      [e.vars.mResult.value] = pkg.dataHash := by
    rw [h.dataHash]
    rfl
  intro H nextDataBatch hst h₁ h₂ error unset memory hfirst hsecond
  rw [h.pkey] at hfirst hsecond
  refine ⟨⟨.sealed W.internalPrivateKey W.internalPublicKey, pkg.dataHash, false, pkg.dataHash,
    [e.vars.mResult.value], 0⟩, ⟨.sealed W.internalPrivateKey W.internalPublicKey, pkg.dataHash,
    true, pkg.dataHash, [e.vars.mResult.value], 0⟩, ?_, rfl, ?_, ?_⟩
  · simp [DataProvider.new, sealedKind, hinternal, Provider.process, Provider.batchKey, hfirst,
      Provider.openBatch, hopen, Provider.takeBatch, hbatch, hhash]
  · simp [Provider.process, Provider.batchKey, hsecond]
  · simp [Provider.checkActualDataHash, Provider.dataHash]

end Arrival

/-- The package of a forwarded result is all that the target needs: with its key pair the key
manager there takes in the key for the target enclave, and the source that is opened with that
key reads the result, the whole result and nothing but it. -/
theorem forwarded_result_arrives (hc : Correct W.crypto)
    (hinternal : W.crypto.generatePkeyFromSkey W.internalPrivateKey = .ok W.internalPublicKey)
    {e e' : Enclave} {dianSkey : Bytes}
    (hdian : W.crypto.generatePkeyFromSkey dianSkey = .ok e.results.mTargetDianPkey)
    (hbatch : W.packages.batchData (W.packages.batchDataPkg [e.vars.mResult.value]) =
      some [e.vars.mResult.value])
    (hgenerate : W.generateForward e = .ok () e') :
    ∃ pkg, e'.results.mResultBytes = W.packages.forwardResult pkg ∧
      pkg.enclaveHash = e.results.mTargetEnclaveHash ∧
      KeyArrives W.crypto pkg W.internalPrivateKey dianSkey e.results.mTargetDianPkey ∧
      ResultArrives W.crypto W.packages.batchData pkg W.internalPrivateKey
        e.vars.mResult.value := by
  obtain ⟨pkg, hbytes, hforwarded⟩ := generateForward_ok hgenerate
  exact ⟨pkg, hbytes, hforwarded.enclaveHash,
    keyArrives_of_forwarded hc hinternal hdian hforwarded,
    resultArrives_of_forwarded hc hinternal hbatch hforwarded⟩

section Demo

/-- The relay on packages that have a batch format. -/
def forwardWrapper : AlgoWrapper :=
  { demoWrapper with
    result := .forwardResult
    packages := { demoPackages with
      batchData := DataFeed.wordFormat.fromBytes
      batchDataPkg := DataFeed.wordFormat.forPackage } }

/-- The result `[7]`, to be forwarded to an enclave with the dian key `2`. -/
def forwardEnclave : Enclave :=
  { forwardWrapper.start with
    vars := { forwardWrapper.start.vars with mResult := ⟨[7], some 2⟩ }
    results := { forwardWrapper.start.results with
      mTargetEnclaveHash := List.replicate 32 1
      mTargetDianPkey := demoPkey 2 } }

theorem forwarded_result_arrives_once : ∃ pkg,
    (reached (forwardWrapper.generateForward forwardEnclave)).results.mResultBytes =
      forwardWrapper.packages.forwardResult pkg ∧
    pkg.enclaveHash = List.replicate 32 1 ∧
    KeyArrives CryptoPack.plain pkg (demoSkey 8) (demoSkey 2) (demoPkey 2) ∧
    ResultArrives CryptoPack.plain DataFeed.wordFormat.fromBytes pkg (demoSkey 8) [7] :=
  forwarded_result_arrives (W := forwardWrapper) (e := forwardEnclave) plain_correct
    (by decide +kernel) (by decide +kernel)
    (DataFeed.wordFormat.round_trip [[7]] (by decide +kernel))
    (eq_ok_of_returns (by decide +kernel))

end Demo
end PrivacyComputing.Analyzer
