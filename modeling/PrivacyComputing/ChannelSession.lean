import PrivacyComputing.CryptoPack
import PrivacyComputing.MemoryLayout

/-! `dh_session`: the state that the two ends of a local attestation channel keep
after the handshake, and the two methods that use it. A round trip of the
initiator is cut at the ocall: the request is made before it and the response is
checked after it. -/
namespace PrivacyComputing.Channel
open LittleEndian

/-- `sgx_rijndael128GCM_encrypt` and `sgx_rijndael128GCM_decrypt` without additional data. -/
structure Gcm where
  encrypt : (key iv data : Bytes) → Except StxError (Bytes × Bytes)
  decrypt : (key iv cipher tag : Bytes) → Except StxError Bytes
  cipher_size : ∀ key iv data cipher tag,
    encrypt key iv data = .ok (cipher, tag) → cipher.length = data.length
  decrypt_encrypt : ∀ key iv data cipher tag,
    encrypt key iv data = .ok (cipher, tag) → decrypt key iv cipher tag = .ok data

/-- `sgx_dh_session_enclave_identity_t`; `other` holds the fields that only the trust check
of the peer reads. -/
structure EnclaveIdentity where
  mrEnclave : Bytes
  other : Bytes
  deriving DecidableEq, Repr

inductive SessionStatus
  | inProgress | active | closed
  deriving DecidableEq, Repr

/-- `secure_message_t` with `sgx_aes_gcm_data_t` unfolded. -/
structure SecureMessage where
  sessionId : UInt32
  payloadSize : UInt32
  reserved : Bytes
  payloadTag : Bytes
  payload : Bytes
  deriving DecidableEq, Repr

/-- `sizeof(secure_message_t)`. -/
def headerSize : ℕ := 36

/-- `dh_session`. Of the union `m_state` these are the `active` members, zero at first. -/
structure DhSession where
  mSendRequestOcallSet : Bool
  mVerifyPeerEnclaveTrustSet : Bool
  aek : Bytes
  counter : UInt32
  mSessionId : UInt32
  mStatus : SessionStatus
  mPeerIdentity : EnclaveIdentity
  deriving DecidableEq, Repr

def aekSize : ℕ := 16

def DhSession.new : DhSession where
  mSendRequestOcallSet := false
  mVerifyPeerEnclaveTrustSet := false
  aek := List.replicate aekSize 0
  counter := 0
  mSessionId := 0
  mStatus := .inProgress
  mPeerIdentity := ⟨List.replicate 32 0, []⟩

/-- The session nonce as a payload IV: the counter in the first bytes of `reserved`. -/
def nonce (counter : UInt32) : Bytes := encode 4 counter.toNat ++ List.replicate 8 0

section Methods
variable (G : Gcm)

/-- A message of this end under its current counter. Sizes are cut to 32 bits. -/
def DhSession.sealMessage (s : DhSession) (data : Bytes) : Except StxError SecureMessage :=
  match G.encrypt s.aek (nonce s.counter) (data.take (data.length % 2 ^ 32)) with
  | .error e => .error e
  | .ok (cipher, tag) => .ok {
      sessionId := s.mSessionId
      payloadSize := .ofNat data.length
      reserved := nonce s.counter
      payloadTag := tag
      payload := CryptoPack.fit data.length cipher }

def DhSession.openMessage (s : DhSession) (m : SecureMessage) : Except StxError Bytes :=
  G.decrypt s.aek m.reserved (m.payload.take m.payloadSize.toNat) m.payloadTag

/-- `send_request_recv_response` up to the ocall. -/
def DhSession.makeRequest (s : DhSession) (inpBuff : Bytes) : Except StxError SecureMessage :=
  if !s.mSendRequestOcallSet || !s.mVerifyPeerEnclaveTrustSet then .error .invalidParameterError
  else s.sealMessage G inpBuff

/-- `send_request_recv_response` after an ocall that returned success. The session advances
only when the response carries the next nonce. -/
def DhSession.checkResponse (s : DhSession) (resp : SecureMessage) :
    Except StxError Bytes × DhSession :=
  match s.openMessage G resp with
  | .error e => (.error e, s)
  | .ok data =>
    if decode (resp.reserved.take 4) ≠ (s.counter + 1).toNat then (.error .invalidParameterError, s)
    else (.ok data, { s with counter := s.counter + 1 })

/-- What a call of `generate_response` did: the bytes given to the handler, if it came that
far, and how the call ended. -/
structure Reply where
  handled : Option Bytes
  result : Outcome SecureMessage
  deriving DecidableEq, Repr

/-- The sizes that the caller of `generate_response` passes along with the message; the
response buffer may be null. -/
structure ReplyBuffers where
  reqMessageSize : ℕ
  maxPayloadSize : ℕ
  respMessage : Bool
  respMessageSize : ℕ
  deriving DecidableEq, Repr

/-- The part of `generate_response` after the handler returned. -/
def DhSession.respond (s : DhSession) (buffers : ReplyBuffers) (data respStr : Bytes) :
    Reply × DhSession :=
  if respStr.length > buffers.maxPayloadSize then (⟨some data, .err .outBufferLengthError⟩, s)
  else if headerSize + respStr.length > buffers.respMessageSize then
    (⟨some data, .err .outBufferLengthError⟩, s)
  else
    let s := { s with counter := s.counter + 1 }
    match s.sealMessage G respStr with
    | .error e => (⟨some data, .err e⟩, s)
    | .ok m => (⟨some data, .ok m⟩, s)

/-- The handler sees the session it runs in; `none` is an exception. -/
def DhSession.generateResponse (s : DhSession) (reqMessage : Option SecureMessage)
    (handler : Bytes → DhSession → Option Bytes) (buffers : ReplyBuffers) : Reply × DhSession :=
  match reqMessage with
  | none => (⟨none, .err .invalidParameterError⟩, s)
  | some req =>
    if !buffers.respMessage then (⟨none, .err .invalidParameterError⟩, s)
    else if s.mStatus ≠ .active then (⟨none, .err .invalidSession⟩, s)
    else if (buffers.reqMessageSize + 2 ^ 64 - headerSize) % 2 ^ 64 ≠ req.payloadSize.toNat then
      (⟨none, .err .invalidParameterError⟩, s)
    else
      match s.openMessage G req with
      | .error e => (⟨none, .err e⟩, s)
      | .ok data =>
        match handler data s with
        | none => (⟨some data, .throws⟩, s)
        | some respStr => s.respond G buffers data respStr

theorem decode_nonce (counter : UInt32) : decode ((nonce counter).take 4) = counter.toNat := by
  rw [nonce, List.take_left' (encode_length 4 _)]
  exact decode_encode_of_lt counter.toNat_lt

/-- What `data2encrypt_length` leaves of the data. -/
def cut (data : Bytes) : Bytes := data.take (data.length % 2 ^ 32)

lemma cut_of_lt {data : Bytes} (h : data.length < 2 ^ 32) : cut data = data := by
  rw [cut, Nat.mod_eq_of_lt h, List.take_length]

lemma sealMessage_reserved {s : DhSession} {data : Bytes} {m : SecureMessage}
    (h : s.sealMessage G data = .ok m) : m.reserved = nonce s.counter := by
  unfold DhSession.sealMessage at h
  split at h
  · cases h
  · cases h
    rfl

lemma sealMessage_payloadSize {s : DhSession} {data : Bytes} {m : SecureMessage}
    (h : s.sealMessage G data = .ok m) : m.payloadSize = .ofNat data.length := by
  unfold DhSession.sealMessage at h
  split at h
  · cases h
  · cases h
    rfl

lemma sealMessage_total (hG : ∀ key iv data, ∃ made, G.encrypt key iv data = .ok made)
    (s : DhSession) (data : Bytes) : ∃ m, s.sealMessage G data = .ok m := by
  obtain ⟨made, hmade⟩ := hG s.aek (nonce s.counter) (data.take (data.length % 2 ^ 32))
  exact ⟨_, by rw [DhSession.sealMessage, hmade]⟩

/-- A message opens at every session with the key it was made under. -/
theorem open_sealMessage {s t : DhSession} {data : Bytes} {m : SecureMessage}
    (hkey : t.aek = s.aek) (h : s.sealMessage G data = .ok m) :
    t.openMessage G m = .ok (cut data) := by
  unfold DhSession.sealMessage at h
  split at h
  · cases h
  · rename_i cipher tag henc
    cases h
    have hsize := G.cipher_size _ _ _ _ _ henc
    have hcut : (data.take (data.length % 2 ^ 32)).length = data.length % 2 ^ 32 := by
      rw [List.length_take]
      exact min_eq_left (Nat.mod_le _ _)
    rw [hcut] at hsize
    have hpayload : (CryptoPack.fit data.length cipher).take (UInt32.ofNat data.length).toNat =
        cipher := by
      have hle : data.length % 2 ^ 32 ≤ data.length := Nat.mod_le _ _
      rw [CryptoPack.fit, List.take_take, UInt32.toNat_ofNat', min_eq_left hle]
      exact List.take_left' hsize
    rw [DhSession.openMessage, hpayload, hkey]
    exact G.decrypt_encrypt _ _ _ _ _ henc

lemma checkResponse_cases (s : DhSession) (resp : SecureMessage) :
    (∃ e, s.checkResponse G resp = (.error e, s)) ∨
    ∃ data, s.checkResponse G resp = (.ok data, { s with counter := s.counter + 1 }) ∧
      s.openMessage G resp = .ok data ∧
      decode (resp.reserved.take 4) = (s.counter + 1).toNat := by
  unfold DhSession.checkResponse
  cases hopen : s.openMessage G resp with
  | error e => exact .inl ⟨e, rfl⟩
  | ok data =>
    dsimp only
    split_ifs with hnonce
    · exact .inl ⟨_, rfl⟩
    · exact .inr ⟨data, rfl, rfl, not_not.mp hnonce⟩

/-- Only the counter of a session moves when it receives a response. -/
lemma checkResponse_keeps (s : DhSession) (resp : SecureMessage) :
    (s.checkResponse G resp).2.mStatus = s.mStatus ∧ (s.checkResponse G resp).2.aek = s.aek ∧
      (s.checkResponse G resp).2.mPeerIdentity = s.mPeerIdentity := by
  obtain ⟨e, he⟩ | ⟨data, hd, -, -⟩ := checkResponse_cases G s resp
  · rw [he]
    exact ⟨rfl, rfl, rfl⟩
  · rw [hd]
    exact ⟨rfl, rfl, rfl⟩

/-- Everything one call of `generate_response` can do. -/
inductive GenerateSpec (s : DhSession) (reqMessage : Option SecureMessage)
    (handler : Bytes → DhSession → Option Bytes) (buffers : ReplyBuffers) :
    Reply → DhSession → Prop
  | refused (e : StxError) : GenerateSpec s reqMessage handler buffers ⟨none, .err e⟩ s
  | failed (req : SecureMessage) (data : Bytes) (result : Outcome SecureMessage)
      (hreq : reqMessage = some req) (active : s.mStatus = .active)
      (opened : s.openMessage G req = .ok data) (none_sent : ∀ m, result ≠ .ok m) :
      GenerateSpec s reqMessage handler buffers ⟨some data, result⟩ s
  | lost (req : SecureMessage) (data : Bytes) (e : StxError)
      (hreq : reqMessage = some req) (active : s.mStatus = .active)
      (opened : s.openMessage G req = .ok data) :
      GenerateSpec s reqMessage handler buffers ⟨some data, .err e⟩
        { s with counter := s.counter + 1 }
  | answered (req : SecureMessage) (data respStr : Bytes) (m : SecureMessage)
      (hreq : reqMessage = some req) (active : s.mStatus = .active)
      (opened : s.openMessage G req = .ok data) (hout : handler data s = some respStr)
      (fits : respStr.length ≤ buffers.maxPayloadSize)
      (hseal : { s with counter := s.counter + 1 }.sealMessage G respStr = .ok m) :
      GenerateSpec s reqMessage handler buffers ⟨some data, .ok m⟩
        { s with counter := s.counter + 1 }

theorem respond_spec {s : DhSession} {req : SecureMessage} {data respStr : Bytes}
    {handler : Bytes → DhSession → Option Bytes} (buffers : ReplyBuffers)
    (active : s.mStatus = .active) (opened : s.openMessage G req = .ok data)
    (hout : handler data s = some respStr) :
    GenerateSpec G s (some req) handler buffers (s.respond G buffers data respStr).1
      (s.respond G buffers data respStr).2 := by
  unfold DhSession.respond
  split_ifs with hlong hbuf
  · exact .failed req data _ rfl active opened (by simp)
  · exact .failed req data _ rfl active opened (by simp)
  · dsimp only
    split
    · exact .lost req data _ rfl active opened
    · rename_i m hseal
      exact .answered req data respStr m rfl active opened hout (by omega) hseal

theorem generateResponse_spec (s : DhSession) (reqMessage : Option SecureMessage)
    (handler : Bytes → DhSession → Option Bytes) (buffers : ReplyBuffers) :
    GenerateSpec G s reqMessage handler buffers
      (s.generateResponse G reqMessage handler buffers).1
      (s.generateResponse G reqMessage handler buffers).2 := by
  unfold DhSession.generateResponse
  cases reqMessage with
  | none => exact .refused _
  | some req =>
    dsimp only
    split_ifs with hresp hactive hsize
    · exact .refused _
    · exact .refused _
    · exact .refused _
    · have active : s.mStatus = .active := not_not.mp hactive
      cases hopen : s.openMessage G req with
      | error e => exact .refused _
      | ok data =>
        cases hout : handler data s with
        | none => simpa [hout] using .failed req data _ rfl active hopen (by simp)
        | some respStr => simpa [hout] using respond_spec G buffers active hopen hout

section Keeps
variable {G} {s t : DhSession} {req : Option SecureMessage}
  {handler : Bytes → DhSession → Option Bytes} {buffers : ReplyBuffers} {reply : Reply}

/-- `generate_response` changes nothing of a session but its counter. -/
lemma GenerateSpec.keeps (h : GenerateSpec G s req handler buffers reply t) :
    t.mStatus = s.mStatus ∧ t.aek = s.aek ∧ t.mPeerIdentity = s.mPeerIdentity := by
  cases h <;> exact ⟨rfl, rfl, rfl⟩

lemma GenerateSpec.active {data : Bytes} (h : GenerateSpec G s req handler buffers reply t)
    (hh : reply.handled = some data) : s.mStatus = .active := by
  cases h with
  | refused e => cases hh
  | failed m data result hreq active opened none_sent => exact active
  | lost m data e hreq active opened => exact active
  | answered m data respStr r hreq active opened hout fits hseal => exact active

end Keeps
end Methods

def plainTag (key iv data : Bytes) : Bytes := CryptoPack.fit 16 (key.take 4 ++ iv.take 4 ++ data)

/-- A transparent cipher to evaluate the model with: only the tag depends on the key. -/
def Gcm.plain : Gcm where
  encrypt key iv data := .ok (data, plainTag key iv data)
  decrypt key iv cipher tag := if tag = plainTag key iv cipher then .ok cipher else .error (.code 3)
  cipher_size key iv data cipher tag h := by
    cases h
    rfl
  decrypt_encrypt key iv data cipher tag h := by
    cases h
    rw [if_pos rfl]

def demoKey : Bytes := List.replicate aekSize 9
def demoId : EnclaveIdentity := ⟨List.replicate 32 1, []⟩
def demoBuffers : ReplyBuffers := ⟨headerSize + 1, 100, true, 200⟩

/-- A one-byte message as the transparent cipher makes it. -/
def demoMessage (counter : UInt32) (b : UInt8) : SecureMessage :=
  ⟨0, 1, nonce counter, plainTag demoKey (nonce counter) [b], [b]⟩

end PrivacyComputing.Channel
