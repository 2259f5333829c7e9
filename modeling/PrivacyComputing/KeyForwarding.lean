import PrivacyComputing.KeyManager
import PrivacyComputing.KeymgrSession

/-! A private key on its way: the two producers of a forwarded key, the registration of it
by the key manager, and the request of an enclave over an established session. -/
namespace PrivacyComputing.KeyForwarding
open KeyManager Channel Analyzer Calls

/-- `enclave_interaction::forward_info`. -/
structure ForwardInfo where
  encryptedSkey : Bytes
  sig : Bytes
  deriving DecidableEq, Repr

/-- `shu_info_t`. -/
structure ShuInfo where
  pkey : Bytes
  encryptedShuSkey : Bytes
  shuForwardSignature : Bytes
  enclaveHash : Bytes
  deriving DecidableEq, Repr

/-- `internal_key_var`; its constructor throws when no public key can be made. -/
structure InternalKeyVar (c : CryptoPack) where
  mPrivateKey : Bytes
  mPublicKey : Bytes
  generated : c.generatePkeyFromSkey mPrivateKey = .ok mPublicKey

section Producers
variable (c : CryptoPack)

/-- What both producers make of a private key: the key encrypted to the dian key, and a
signature by it over the dian key and the enclave hash. -/
def encryptAndSign (rand privateKey dianPkey enclaveHash : Bytes) :
    Except StxError (Bytes × Bytes) :=
  match c.encryptMessageWithPrefix rand dianPkey privateKey cryptoPrefixForward with
  | .error e => .error e
  | .ok encryptedSkey =>
    match c.signMessage privateKey (dianPkey ++ enclaveHash) with
    | .error e => .error e
    | .ok sig => .ok (encryptedSkey, sig)

/-- The client library; a failure throws. -/
def forwardPrivateKey (rand privateKey dianPkey enclaveHash : Bytes) :
    Except StxError ForwardInfo :=
  (encryptAndSign c rand privateKey dianPkey enclaveHash).map fun made => ⟨made.1, made.2⟩

/-- The enclave; a failure throws. -/
def InternalKeyVar.forwardInternalKey {c : CryptoPack} (v : InternalKeyVar c)
    (rand dianPkey targetEnclaveHash : Bytes) : Except StxError ShuInfo :=
  (encryptAndSign c rand v.mPrivateKey dianPkey targetEnclaveHash).map fun made =>
    ⟨v.mPublicKey, made.1, made.2, targetEnclaveHash⟩

/-- An encrypted key and a signature that one of the producers has made. -/
inductive Produced (privateKey dianPkey enclaveHash : Bytes) : Bytes → Bytes → Prop
  | terminus (rand : Bytes) (info : ForwardInfo)
      (made : forwardPrivateKey c rand privateKey dianPkey enclaveHash = .ok info) :
      Produced privateKey dianPkey enclaveHash info.encryptedSkey info.sig
  | enclave (v : InternalKeyVar c) (rand : Bytes) (shu : ShuInfo)
      (key : v.mPrivateKey = privateKey)
      (made : v.forwardInternalKey rand dianPkey enclaveHash = .ok shu) :
      Produced privateKey dianPkey enclaveHash shu.encryptedShuSkey shu.shuForwardSignature

/-- What the pack is assumed to do: a cipher text opens with the private key of its recipient
under its prefix, and a signature verifies under the public key of its signer. -/
structure Correct : Prop where
  decrypt_encrypt : ∀ rand skey pkey data aadPrefix cipher,
    c.generatePkeyFromSkey skey = .ok pkey →
    c.encryptMessageWithPrefix rand pkey data aadPrefix = .ok cipher →
    c.decryptMessageWithPrefix skey cipher aadPrefix = .ok data
  verify_sign : ∀ skey pkey data sig, c.generatePkeyFromSkey skey = .ok pkey →
    c.signMessage skey data = .ok sig → c.verifySignature data sig pkey = .ok ()

lemma encryptAndSign_ok {rand privateKey dianPkey enclaveHash : Bytes} {made : Bytes × Bytes}
    (h : encryptAndSign c rand privateKey dianPkey enclaveHash = .ok made) :
    c.encryptMessageWithPrefix rand dianPkey privateKey cryptoPrefixForward = .ok made.1 ∧
      c.signMessage privateKey (dianPkey ++ enclaveHash) = .ok made.2 := by
  unfold encryptAndSign at h
  split at h
  · cases h
  · rename_i henc
    split at h
    · cases h
    · rename_i hsig
      cases h
      exact ⟨henc, hsig⟩

theorem Produced.parts {privateKey dianPkey enclaveHash encrypted sig : Bytes}
    (h : Produced c privateKey dianPkey enclaveHash encrypted sig) :
    ∃ rand, encryptAndSign c rand privateKey dianPkey enclaveHash = .ok (encrypted, sig) := by
  cases h with
  | terminus rand info made =>
    unfold forwardPrivateKey at made
    cases hmade : encryptAndSign c rand privateKey dianPkey enclaveHash with
    | error e =>
      rw [hmade] at made
      cases made
    | ok pair =>
      rw [hmade] at made
      cases made
      exact ⟨rand, hmade⟩
  | enclave v rand shu key made =>
    unfold InternalKeyVar.forwardInternalKey at made
    rw [key] at made
    cases hmade : encryptAndSign c rand privateKey dianPkey enclaveHash with
    | error e =>
      rw [hmade] at made
      cases made
    | ok pair =>
      rw [hmade] at made
      cases made
      exact ⟨rand, hmade⟩

end Producers

section Registration
variable {c : CryptoPack} {privateKey pkey dianSkey dianPkey enclaveHash encrypted sig : Bytes}

/-- The arguments with which a produced pair is registered, and the key pair that the key
manager has sealed. -/
def registration (encrypted dianPkey enclaveHash sig dianSkey beyond : Bytes) : Forward where
  encryptedPrivateKey := encrypted
  epublicKey := dianPkey
  ehash := enclaveHash
  sig := sig
  keyPair := .ok dianSkey
  beyond := beyond

/-- The registration of a produced pair gets as far as the entry for the table, and its
signature is valid. -/
lemma registration_entry (hc : Correct c) (hpkey : c.generatePkeyFromSkey privateKey = .ok pkey)
    (hdian : c.generatePkeyFromSkey dianSkey = .ok dianPkey)
    (hprod : Produced c privateKey dianPkey enclaveHash encrypted sig) (beyond : Bytes) :
    loadAndCheckKeyPair c (registration encrypted dianPkey enclaveHash sig dianSkey beyond) =
        .ok dianSkey ∧
      forwardedEntry c (registration encrypted dianPkey enclaveHash sig dianSkey beyond) dianSkey =
        .ok (pkey ++ enclaveHash, pkey, ⟨privateKey, dianPkey⟩) ∧
      c.verifySignature (dianPkey ++ enclaveHash) sig pkey = .ok () := by
  obtain ⟨rand, hmade⟩ := hprod.parts
  obtain ⟨henc, hsig⟩ := encryptAndSign_ok c hmade
  have hdec := hc.decrypt_encrypt rand dianSkey dianPkey privateKey _ encrypted hdian henc
  refine ⟨?_, ?_, hc.verify_sign privateKey pkey _ sig hpkey hsig⟩
  · simp [loadAndCheckKeyPair, registration, hdian]
  · simp [forwardedEntry, registration, hdec, hpkey]

/-- A produced pair is accepted, and its entry is made. -/
theorem registration_accepted (hc : Correct c)
    (hpkey : c.generatePkeyFromSkey privateKey = .ok pkey)
    (hdian : c.generatePkeyFromSkey dianSkey = .ok dianPkey)
    (hprod : Produced c privateKey dianPkey enclaveHash encrypted sig) (beyond : Bytes)
    (t : KeyTable) (hfree : t.privateKeyTable (pkey ++ enclaveHash) = none) :
    t.forwardResult c (registration encrypted dianPkey enclaveHash sig dianSkey beyond) = .ok () ∧
      (t.forwardPrivateKey c (registration encrypted dianPkey enclaveHash sig dianSkey
        beyond)).privateKeyTable =
        Function.update t.privateKeyTable (pkey ++ enclaveHash) (some ⟨privateKey, dianPkey⟩) := by
  obtain ⟨hload, hentry, hverify⟩ := registration_entry hc hpkey hdian hprod beyond
  have hsig : c.verifySignature
      ((registration encrypted dianPkey enclaveHash sig dianSkey beyond).epublicKey ++
        (registration encrypted dianPkey enclaveHash sig dianSkey beyond).ehash)
      (registration encrypted dianPkey enclaveHash sig dianSkey beyond).sig pkey = .ok () := hverify
  constructor
  · simp [KeyTable.forwardResult, hload, hentry, hfree, hsig]
  · simp [KeyTable.forwardPrivateKey, hload, hentry, hfree, hsig]

lemma forwardPrivateKey_keeps {t : KeyTable} {key : Bytes} {info : PrivateKeyInfo}
    (h : t.privateKeyTable key = some info) (f : Forward) :
    (t.forwardPrivateKey c f).privateKeyTable key = some info := by
  unfold KeyTable.forwardPrivateKey
  dsimp only
  split
  · exact h
  · split
    · exact h
    · exact h
    · rename_i made _ _ _
      split_ifs with hsome
      · exact h
      · split
        · exact h
        · have hne : key ≠ made := by
            rintro rfl
            simp [h] at hsome
          exact (Function.update_of_ne hne _ _).trans h

/-- Entries stay in the table, whatever is registered or requested later. -/
theorem entry_stays {t : KeyTable} {key : Bytes} {info : PrivateKeyInfo}
    (h : t.privateKeyTable key = some info) (calls : List KeyManager.Call) :
    (Runs.run (KeyTable.step c) t calls).privateKeyTable key = some info := by
  refine @Runs.run_always _ _ (KeyTable.step c) (fun t => t.privateKeyTable key = some info)
    ?_ t calls h
  intro t call h
  cases call with
  | forwardPrivateKey f => exact forwardPrivateKey_keeps h f
  | handlePkg pkey peer =>
    simp only [KeyTable.step, KeyTable.handlePkg]
    cases t.lookup c pkey peer with
    | none => exact h
    | some info' => exact h

end Registration

section Request

/-- `request_skey_from_pkey_pkg_t` as `ff` marshals it. -/
structure RequestPackage where
  encode : Bytes → Bytes
  decode : Bytes → Option Bytes
  decode_encode : ∀ pkey, pkey.length = publicKeySize → decode (encode pkey) = some pkey
  encode_size : ∀ pkey, pkey.length = publicKeySize → (encode pkey).length < 2 ^ 32

variable (c : CryptoPack) (G : Gcm) (M : RequestPackage)

/-- `mr_enclave` of the peer of a session. -/
def peerOf (s : DhSession) : Measurement :=
  ⟨CryptoPack.fit 32 s.mPeerIdentity.mrEnclave, CryptoPack.fit_length 32 _⟩

/-- `handle_pkg` on the bytes of a request. -/
def handler (t : KeyTable) (data : Bytes) (context : DhSession) : Option Bytes :=
  match M.decode data with
  | none => none
  | some pkey => (t.handlePkg c pkey (peerOf context)).1

/-- `utc::max_keymgr_response_buf_size`. -/
def maxKeymgrResponseBufSize : ℕ := 1024 * 1024

/-- The sizes with which the request ocall reaches `mgenerate_response`. -/
def requestBuffers (inpBuff : Bytes) : ReplyBuffers where
  reqMessageSize := headerSize + inpBuff.length
  maxPayloadSize := maxKeymgrResponseBufSize
  respMessage := true
  respMessageSize := headerSize + maxKeymgrResponseBufSize

/-- The key manager's `mgenerate_response` at the session `responder`; an exception becomes
`error_unexpected`. -/
def mgenerateResponse (t : KeyTable) (responder : DhSession) (inpBuff : Bytes)
    (req : SecureMessage) : Answer SecureMessage :=
  match (responder.generateResponse G (some req) (handler c M t) (requestBuffers inpBuff)).1.result
      with
  | .ok m => .ok m
  | .err e => .status e
  | .throws => .status .errorUnexpected

/-- The two ends of an established session: one key, one counter, and nothing missing. -/
structure Established (initiator responder : DhSession) : Prop where
  ocall_set : initiator.mSendRequestOcallSet = true
  verify_set : initiator.mVerifyPeerEnclaveTrustSet = true
  active : responder.mStatus = .active
  key : responder.aek = initiator.aek
  counter : responder.counter = initiator.counter
  peer : responder.mPeerIdentity.mrEnclave.length = 32

variable {c G M} {initiator responder : DhSession} {t : KeyTable} {pkey : Bytes}
  {info : PrivateKeyInfo}

lemma handler_found (hpkey : pkey.length = publicKeySize)
    (hfound : t.lookup c pkey (peerOf responder) = some info) :
    handler c M t (M.encode pkey) responder = some (info.shuSkey ++ info.dianPkey) := by
  simp [handler, M.decode_encode pkey hpkey, KeyTable.handlePkg, hfound]

/-- A request for a key in the table is answered with the two keys under the next counter. -/
theorem mgenerateResponse_found (hE : Established initiator responder)
    (hG : ∀ key iv data, ∃ made, G.encrypt key iv data = .ok made)
    (hpkey : pkey.length = publicKeySize)
    (hfound : t.lookup c pkey (peerOf responder) = some info)
    (hsize : (info.shuSkey ++ info.dianPkey).length = privateKeySize + publicKeySize)
    {req : SecureMessage} (hreq : initiator.makeRequest G (M.encode pkey) = .ok req) :
    ∃ resp, mgenerateResponse c G M t responder (M.encode pkey) req = .ok resp ∧
      { responder with counter := responder.counter + 1 }.sealMessage G
        (info.shuSkey ++ info.dianPkey) = .ok resp := by
  have hlen := M.encode_size pkey hpkey
  have hseal : initiator.sealMessage G (M.encode pkey) = .ok req := by
    simpa [DhSession.makeRequest, hE.ocall_set, hE.verify_set] using hreq
  have hopen := open_sealMessage G hE.key hseal
  rw [cut_of_lt hlen] at hopen
  have hpayload : req.payloadSize.toNat = (M.encode pkey).length := by
    rw [sealMessage_payloadSize G hseal, UInt32.toNat_ofNat', Nat.mod_eq_of_lt hlen]
  have hreqSize : ((requestBuffers (M.encode pkey)).reqMessageSize + 2 ^ 64 - headerSize) % 2 ^ 64 =
      req.payloadSize.toNat := by
    simp only [requestBuffers, hpayload]
    omega
  have hhandled := handler_found (M := M) hpkey hfound
  obtain ⟨resp, hresp⟩ := sealMessage_total G hG { responder with counter := responder.counter + 1 }
    (info.shuSkey ++ info.dianPkey)
  refine ⟨resp, ?_, hresp⟩
  have hfits : ¬ (info.shuSkey ++ info.dianPkey).length > maxKeymgrResponseBufSize := by
    rw [hsize]
    decide
  have hbuffer : ¬ headerSize + (info.shuSkey ++ info.dianPkey).length >
      headerSize + maxKeymgrResponseBufSize := by omega
  have hactive := hE.active
  have hrespond : (responder.respond G (requestBuffers (M.encode pkey)) (M.encode pkey)
      (info.shuSkey ++ info.dianPkey)).1 = ⟨some (M.encode pkey), .ok resp⟩ := by
    simp only [DhSession.respond, requestBuffers, hfits, hbuffer, if_false, hresp]
  have hset : (requestBuffers (M.encode pkey)).respMessage = true := rfl
  rw [mgenerateResponse, DhSession.generateResponse]
  simp only [hset, hreqSize, hopen, hhandled, hactive, ne_eq, not_true_eq_false, if_false,
    Bool.not_true, Bool.false_eq_true, hrespond]

/-- The initiator accepts the answer and returns the two keys. -/
theorem sendRequestRecvResponse_found (hE : Established initiator responder)
    (hG : ∀ key iv data, ∃ made, G.encrypt key iv data = .ok made)
    (hpkey : pkey.length = publicKeySize)
    (hfound : t.lookup c pkey (peerOf responder) = some info)
    (hsize : (info.shuSkey ++ info.dianPkey).length = privateKeySize + publicKeySize)
    {O : Outside} {k : Keymgr} (hk : k.mKeymgrSession = some initiator)
    (hdeliver : ∀ req, initiator.makeRequest G (M.encode pkey) = .ok req →
      O.sendRequest k.tick req = mgenerateResponse c G M t responder (M.encode pkey) req) :
    ∃ k', sendRequestRecvResponse G O (M.encode pkey) k =
      .ok (.ok (), info.shuSkey ++ info.dianPkey) k' := by
  obtain ⟨req, hseal⟩ := sealMessage_total G hG initiator (M.encode pkey)
  have hreq : initiator.makeRequest G (M.encode pkey) = .ok req := by
    simpa [DhSession.makeRequest, hE.ocall_set, hE.verify_set] using hseal
  obtain ⟨resp, hanswer, hresp⟩ := mgenerateResponse_found hE hG hpkey hfound hsize hreq
  have hsend := hdeliver req hreq
  rw [hanswer] at hsend
  have hkey : initiator.aek = { responder with counter := responder.counter + 1 }.aek :=
    hE.key.symm
  have hopen : initiator.openMessage G resp = .ok (info.shuSkey ++ info.dianPkey) := by
    rw [open_sealMessage G hkey hresp, cut_of_lt]
    rw [hsize]
    decide
  have hnonce : LittleEndian.decode (resp.reserved.take 4) = (initiator.counter + 1).toNat := by
    rw [sealMessage_reserved G hresp, decode_nonce]
    simp only [hE.counter]
  have hfit : CryptoPack.fit resp.payloadSize.toNat (info.shuSkey ++ info.dianPkey) =
      info.shuSkey ++ info.dianPkey := by
    have hlen : resp.payloadSize.toNat = (info.shuSkey ++ info.dianPkey).length := by
      rw [sealMessage_payloadSize G hresp, hsize]
      rfl
    rw [CryptoPack.fit, hlen, List.take_left]
  have hcheck : initiator.checkResponse G resp = (.ok (info.shuSkey ++ info.dianPkey),
      { initiator with counter := initiator.counter + 1 }) := by
    simp only [DhSession.checkResponse, hopen, hnonce, ne_eq, not_true_eq_false, if_false]
  simp only [sendRequestRecvResponse, get_bind, hk, modify_bind, hreq, hsend, receive, hopen,
    hcheck, hfit]
  exact ⟨_, rfl⟩

end Request

section Agreement
variable {c : CryptoPack} {G : Gcm} {M : RequestPackage}

/-- The enclave at the other end of the session gets the key: it is the enclave that the key was
forwarded for, or the key was forwarded for any enclave and this one has no entry of its own. -/
def Entitled (c : CryptoPack) (t : KeyTable) (pkey enclaveHash : Bytes) (responder : DhSession) :
    Prop :=
  (peerOf responder).1 = enclaveHash ∨
    (enclaveHash = c.hash256 anyEnclave ∧
      t.privateKeyTable (pkey ++ (peerOf responder).1) = none)

lemma lookup_entitled {t : KeyTable} {pkey enclaveHash : Bytes} {info : PrivateKeyInfo}
    {responder : DhSession} (hentry : t.privateKeyTable (pkey ++ enclaveHash) = some info)
    (hpeer : Entitled c t pkey enclaveHash responder) :
    t.lookup c pkey (peerOf responder) = some info := by
  rcases hpeer with rfl | ⟨rfl, hnone⟩
  · simp [KeyTable.lookup, hentry]
  · simp [KeyTable.lookup, hnone, hentry]

/-- A pair made by either producer is accepted by the key manager, and from then on, whatever
else is registered, every entitled enclave that asks over its session is given the key. -/
theorem forwarded_key_is_granted (hc : Correct c)
    (hG : ∀ key iv data, ∃ made, G.encrypt key iv data = .ok made)
    {privateKey pkey dianSkey dianPkey enclaveHash encrypted sig : Bytes}
    (hsize : privateKey.length = privateKeySize)
    (hpkey : c.generatePkeyFromSkey privateKey = .ok pkey)
    (hdian : c.generatePkeyFromSkey dianSkey = .ok dianPkey)
    (hprod : Produced c privateKey dianPkey enclaveHash encrypted sig) (beyond : Bytes)
    (t : KeyTable) (hfree : t.privateKeyTable (pkey ++ enclaveHash) = none) :
    t.forwardResult c (registration encrypted dianPkey enclaveHash sig dianSkey beyond) = .ok () ∧
      ∀ (calls : List KeyManager.Call) (t' : KeyTable),
        t' = Runs.run (KeyTable.step c) (t.forwardPrivateKey c
          (registration encrypted dianPkey enclaveHash sig dianSkey beyond)) calls →
        ∀ (initiator responder : DhSession) (O : Outside) (k : Keymgr),
          Established initiator responder → k.mKeymgrSession = some initiator →
          (∀ req, initiator.makeRequest G (M.encode pkey) = .ok req →
            O.sendRequest k.tick req =
              mgenerateResponse c G M t' responder (M.encode pkey) req) →
          Entitled c t' pkey enclaveHash responder →
          ∃ k', requestPrivateKeyForPublicKey c G O M.encode pkey k =
            .ok (.granted privateKey dianPkey) k' := by
  obtain ⟨hresult, htable⟩ := registration_accepted hc hpkey hdian hprod beyond t hfree
  refine ⟨hresult, ?_⟩
  rintro calls t' rfl initiator responder O k hE hk hdeliver hpeer
  have hentry : (t.forwardPrivateKey c (registration encrypted dianPkey enclaveHash sig dianSkey
      beyond)).privateKeyTable (pkey ++ enclaveHash) = some ⟨privateKey, dianPkey⟩ := by
    rw [htable, Function.update_self]
  have hpkeySize := c.pkey_size _ _ hpkey
  have hdianSize := c.pkey_size _ _ hdian
  have hlen : (privateKey ++ dianPkey).length = privateKeySize + publicKeySize := by
    rw [List.length_append, hsize, hdianSize]
  obtain ⟨k', hreceived⟩ := sendRequestRecvResponse_found hE hG hpkeySize
    (lookup_entitled (entry_stays hentry calls) hpeer) hlen hk hdeliver
  refine ⟨k', ?_⟩
  rw [requestPrivateKeyForPublicKey, bind_ok hreceived, pure_apply]
  have htake : (privateKey ++ dianPkey).take privateKeySize = privateKey := List.take_left' hsize
  have hdrop : (privateKey ++ dianPkey).drop privateKeySize = dianPkey := List.drop_left' hsize
  simp [checkKeys, hlen, htake, hdrop, hpkey]

end Agreement

section Demo

theorem plain_correct : Correct CryptoPack.plain where
  decrypt_encrypt rand skey pkey data aadPrefix cipher hpkey henc := by
    change CryptoPack.plainPkey skey = .ok pkey at hpkey
    unfold CryptoPack.plainPkey at hpkey
    split_ifs at hpkey with hlen
    cases hpkey
    exact CryptoPack.plain_decrypt_encrypt hlen rand data cipher aadPrefix henc
  verify_sign skey pkey data sig hpkey hsig := by
    change CryptoPack.plainPkey skey = .ok pkey at hpkey
    unfold CryptoPack.plainPkey at hpkey
    split_ifs at hpkey with hlen
    cases hpkey
    cases hsig
    have htake : (skey ++ skey).take privateKeySize = skey := List.take_left' hlen
    simp [CryptoPack.plain, htake]

def plainPackage : RequestPackage where
  encode := fun pkey => pkey
  decode := some
  decode_encode _ _ := rfl
  encode_size pkey h := by
    rw [h]
    decide

def demoInitiator : DhSession := ⟨true, true, demoKey, 5, 1, .active, demoId⟩
def demoResponder : DhSession := ⟨true, true, demoKey, 5, 0, .active, ⟨demoPeer.1, []⟩⟩

def demoInfo : ForwardInfo where
  encryptedSkey := CryptoPack.plainEnvelope (dianSkey ++ dianSkey) cryptoPrefixForward ++ shuSkey
  sig := shuSkey ++ (dianSkey ++ dianSkey ++ demoPeer.1)

def demoRegistration : Forward :=
  registration demoInfo.encryptedSkey (dianSkey ++ dianSkey) demoPeer.1 demoInfo.sig dianSkey []

/-- A host that hands every request to the key manager. -/
def demoHost : Outside where
  dhInitSession _ := .ok ()
  sessionRequest _ := .ocallFails
  procMsg1 _ _ := .ok []
  exchangeReport _ _ _ := .ocallFails
  procMsg3 _ _ := .ok ([], demoId)
  sendRequest _ req := mgenerateResponse CryptoPack.plain Gcm.plain plainPackage
    (KeyTable.start.forwardPrivateKey CryptoPack.plain demoRegistration) demoResponder
    (shuSkey ++ shuSkey) req
  endSession _ _ := .ocallFails
  unsetBuffer _ := []

theorem forwarded_key_is_granted_once :
    forwardPrivateKey CryptoPack.plain [] shuSkey (dianSkey ++ dianSkey) demoPeer.1 =
      .ok demoInfo ∧
    KeyTable.start.forwardResult CryptoPack.plain demoRegistration = .ok () ∧
    ∃ k', requestPrivateKeyForPublicKey CryptoPack.plain Gcm.plain demoHost plainPackage.encode
      (shuSkey ++ shuSkey) ⟨some demoInitiator, 0, []⟩ =
        .ok (.granted shuSkey (dianSkey ++ dianSkey)) k' := by
  have hmade : forwardPrivateKey CryptoPack.plain [] shuSkey (dianSkey ++ dianSkey) demoPeer.1 =
      .ok demoInfo := rfl
  have hdian : CryptoPack.plain.generatePkeyFromSkey dianSkey = .ok (dianSkey ++ dianSkey) := rfl
  have htotal : ∀ key iv data, ∃ made, Gcm.plain.encrypt key iv data = .ok made :=
    fun key iv data => ⟨_, rfl⟩
  obtain ⟨hresult, hgranted⟩ := forwarded_key_is_granted (M := plainPackage) plain_correct
    htotal rfl rfl hdian (.terminus [] demoInfo hmade) [] KeyTable.start rfl
  exact ⟨hmade, hresult, hgranted [] _ rfl demoInitiator demoResponder demoHost _
    ⟨rfl, rfl, rfl, rfl, rfl, rfl⟩ rfl (fun _ _ => rfl) (.inl rfl)⟩

end Demo

end PrivacyComputing.KeyForwarding
