import PrivacyComputing.AnalyzerFrame
import PrivacyComputing.KeyForwarding

/-! The target of a forwarded result: what `gen_relay_result_proof` signs for the requester and
what `set_forward_target_info` accepts in the relay enclave. -/
namespace PrivacyComputing.Analyzer
open Calls

variable {W : AlgoWrapper}

section Target

/-- `gen_relay_result_proof` of the terminus client. A failed signature throws. -/
def genRelayResultProof (c : CryptoPack) (param privateKey relayEnclaveHash relayTeePkey
    targetEnclaveHash targetTeePkey : Bytes) : Except StxError ForwardTarget :=
  match c.signMessage privateKey
      (param ++ relayEnclaveHash ++ relayTeePkey ++ targetEnclaveHash ++ targetTeePkey) with
  | .error error => .error error
  | .ok sig => .ok ⟨targetEnclaveHash, targetTeePkey, sig⟩

def AlgoWrapper.acceptsTarget (W : AlgoWrapper) (e : Enclave) (param : Param)
    (target : ForwardTarget) : Bool :=
  match W.setForwardTargetInfo { param with forward := target } e with
  | .ok _ _ => true
  | .error _ _ => false

/-- A granted request changes the session with the key manager at most. -/
lemma requestKey_ok {pkey : Bytes} {e e' : Enclave} {keys : Bytes × Bytes}
    (h : W.requestKey pkey e = .ok keys e') :
    e'.mEnclaveHash = e.mEnclaveHash ∧ W.crypto.generatePkeyFromSkey keys.1 = .ok pkey := by
  cases hanswer : W.requestPrivateKey pkey e with
  | error stop e₁ =>
    rw [AlgoWrapper.requestKey, bind_error hanswer] at h
    cases h
  | ok answer e₁ =>
    rw [AlgoWrapper.requestKey, bind_ok hanswer] at h
    have hgranted := (AlgoWrapper.requestPrivateKey_granted pkey).ok trivial hanswer
    cases answer with
    | unset error => cases h
    | failed privateKey dianPkey error => cases h
    | granted privateKey dianPkey =>
      cases h
      refine ⟨?_, (hgranted privateKey dianPkey rfl).1⟩
      unfold AlgoWrapper.requestPrivateKey onKeymgr zoom at hanswer
      split at hanswer
      · cases hanswer
        rfl
      · cases hanswer

/-- The message that the relay enclave checks a target against. -/
def relayMessage (e : Enclave) (param : Param) (dianPkey : Bytes) (target : ForwardTarget) :
    Bytes :=
  param.paramData ++ e.mEnclaveHash ++ dianPkey ++ target.enclaveHash ++ target.pkey

theorem acceptsTarget_iff (hforward : W.result = .forwardResult) (e : Enclave) (param : Param)
    (target : ForwardTarget) :
    W.acceptsTarget e param target = true ↔
      ∃ keys e', W.requestKey param.pkey e = .ok keys e' ∧
        W.crypto.verifySignature (relayMessage e param keys.2 target) target.encryptedSig
          param.pkey = .ok () := by
  unfold AlgoWrapper.acceptsTarget AlgoWrapper.setForwardTargetInfo
  rw [hforward]
  cases hkey : W.requestKey param.pkey e with
  | error stop e' => simp [bind_error hkey]
  | ok keys e' =>
    obtain ⟨hhash, hpkey⟩ := requestKey_ok hkey
    have hmessage : relayMessage e param keys.2 target =
      param.paramData ++ e.mEnclaveHash ++ keys.2 ++ target.enclaveHash ++ target.pkey := rfl
    simp only [bind_ok hkey, get_bind, AlgoWrapper.allowanceCheck, hpkey, hhash, ← hmessage]
    cases hverify : W.crypto.verifySignature (relayMessage e param keys.2 target)
      target.encryptedSig param.pkey with
    | error error =>
      constructor
      · intro h
        cases h
      · rintro ⟨keys', e'', hsame, hok⟩
        cases hsame
        rw [hverify] at hok
        cases hok
    | ok u =>
      constructor
      · intro _
        exact ⟨keys, e', rfl, hverify⟩
      · intro _
        rfl

/-- Where the signature is good for one message only, the accepted targets are the ways to split
one string, so that there is at most one for each length of the enclave hash. The target that the
requester has signed is among them. -/
theorem accepted_targets_split_one_string (W : AlgoWrapper) (hforward : W.result = .forwardResult)
    (hsign : ∀ skey pkey data sig, W.crypto.generatePkeyFromSkey skey = .ok pkey →
      W.crypto.signMessage skey data = .ok sig → W.crypto.verifySignature data sig pkey = .ok ())
    (e : Enclave) (param : Param) (sig : Bytes)
    (hone : ∃! m, W.crypto.verifySignature m sig param.pkey = .ok ()) :
    (∀ hash pkey hash' pkey', W.acceptsTarget e param ⟨hash, pkey, sig⟩ = true →
        W.acceptsTarget e param ⟨hash', pkey', sig⟩ = true →
        hash ++ pkey = hash' ++ pkey' ∧
          (hash.length = hash'.length → hash = hash' ∧ pkey = pkey')) ∧
      ∀ keys e' skey hash pkey target, W.requestKey param.pkey e = .ok keys e' →
        W.crypto.generatePkeyFromSkey skey = .ok param.pkey →
        genRelayResultProof W.crypto param.paramData skey e.mEnclaveHash keys.2 hash pkey =
          .ok target →
        W.acceptsTarget e param target = true := by
  constructor
  · intro hash pkey hash' pkey' h h'
    obtain ⟨keys, e₁, hkey, hverify⟩ := (acceptsTarget_iff hforward e param _).mp h
    obtain ⟨keys', e₂, hkey', hverify'⟩ := (acceptsTarget_iff hforward e param _).mp h'
    rw [hkey] at hkey'
    cases hkey'
    have heq := hone.unique hverify hverify'
    simp only [relayMessage, List.append_assoc, List.append_cancel_left_eq] at heq
    exact ⟨heq, List.append_inj heq⟩
  · intro keys e' skey hash pkey target hkey hpkey hproof
    refine (acceptsTarget_iff hforward e param target).mpr ⟨keys, e', hkey, ?_⟩
    unfold genRelayResultProof at hproof
    split at hproof
    · cases hproof
    · rename_i made hmade
      cases hproof
      exact hsign skey param.pkey _ _ hpkey hmade

end Target

section Demo

/-- A relay in session with the key manager, about to look at the target of the requester `7`. -/
def relayWrapper : AlgoWrapper := { demoWrapper with result := .forwardResult }

def relayEnclave : Enclave :=
  Runs.run relayWrapper.step relayWrapper.start [.initDataSource [5], .beginParseDataItem]

def relayParam : Param := { demoParam 7 7 5 with paramData := [7] }

def relayTarget : Bytes := List.replicate 32 1

/-- The signature of the requester for this target with the key `2`. -/
def relaySig : Bytes :=
  demoSkey 7 ++ ([7] ++ demoEnclaveHash ++ demoPkey 6 ++ relayTarget ++ demoPkey 2)

lemma relaySig_verifies_one :
    ∃! m, relayWrapper.crypto.verifySignature m relaySig relayParam.pkey = .ok () := by
  have hkey : relayParam.pkey.take privateKeySize = demoSkey 7 := by decide
  refine ⟨[7] ++ demoEnclaveHash ++ demoPkey 6 ++ relayTarget ++ demoPkey 2, by decide +kernel, ?_⟩
  intro m hm
  simp only [relayWrapper, demoWrapper, CryptoPack.plain, hkey] at hm
  split_ifs at hm with heq
  exact List.append_cancel_left heq

theorem relay_target_is_accepted :
    (∃ target, genRelayResultProof CryptoPack.plain [7] (demoSkey 7) relayEnclave.mEnclaveHash
        (demoPkey 6) relayTarget (demoPkey 2) = .ok target ∧
      relayWrapper.acceptsTarget relayEnclave relayParam target = true) ∧
    ∀ hash pkey, relayWrapper.acceptsTarget relayEnclave relayParam ⟨hash, pkey, relaySig⟩ = true →
      hash.length = 32 → hash = relayTarget ∧ pkey = demoPkey 2 := by
  obtain ⟨hsplit, -⟩ := accepted_targets_split_one_string relayWrapper rfl
    KeyForwarding.plain_correct.verify_sign relayEnclave relayParam relaySig relaySig_verifies_one
  have haccepted : relayWrapper.acceptsTarget relayEnclave relayParam
      ⟨relayTarget, demoPkey 2, relaySig⟩ = true := by decide +kernel
  refine ⟨⟨⟨relayTarget, demoPkey 2, relaySig⟩, by decide +kernel, haccepted⟩, ?_⟩
  intro hash pkey h hlen
  exact (hsplit hash pkey relayTarget (demoPkey 2) h haccepted).2 hlen

/-- Moving a byte from the hash to the key makes another target that the signature is good
for. -/
theorem signature_names_two_targets :
    (∃! m, relayWrapper.crypto.verifySignature m relaySig relayParam.pkey = .ok ()) ∧
      relayWrapper.acceptsTarget relayEnclave relayParam
        ⟨relayTarget, demoPkey 2, relaySig⟩ = true ∧
      relayWrapper.acceptsTarget relayEnclave relayParam
        ⟨List.replicate 31 1, 1 :: demoPkey 2, relaySig⟩ = true :=
  ⟨relaySig_verifies_one, by decide +kernel, by decide +kernel⟩

end Demo
end PrivacyComputing.Analyzer
