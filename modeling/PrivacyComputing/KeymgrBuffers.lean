import PrivacyComputing.KeymgrSession

/-! The memory of `send_request_recv_response`: the response is a buffer of the enclave that the
ocall fills with bytes of the host, and the decryption reads as much of it as the bytes say. -/
namespace PrivacyComputing.Analyzer
open Calls Channel LittleEndian

/-- A sum of type `size_t`. -/
def sizeT (n : ℕ) : ℕ := n % 2 ^ 64

/-- `sizeof(resp_message)`, the size of a pointer. -/
def pointerSize : ℕ := 8

/-- `malloc_error` of `stx_status.def`. -/
def mallocError : StxError := .code 0x100E8

def maxKeymgrResponseBufSize : UInt64 := 1024 * 1024

/-- What a call depends on besides its arguments: whether memory is there, and what the host
writes into the response buffer. -/
structure Surroundings where
  mallocRequest : (size : ℕ) → Bool
  mallocResponse : (size : ℕ) → Bool
  newOutBuff : (size : ℕ) → Bool
  sendRequestOcall : (reqMessage : SecureMessage) → (maxPayloadSize respMessageSize : ℕ) →
    Answer Bytes

/-- The `payload_size` of a `secure_message_t` in memory. -/
def payloadSizeAt (buffer : Bytes) : UInt32 := .ofNat (decode ((buffer.drop 4).take 4))

/-- The packed members of a `secure_message_t` in memory. -/
def readMessage (buffer : Bytes) : SecureMessage where
  sessionId := .ofNat (decode (buffer.take 4))
  payloadSize := payloadSizeAt buffer
  reserved := (buffer.drop 8).take 12
  payloadTag := (buffer.drop 20).take 16
  payload := buffer.drop headerSize

/-- The call of `sgx_rijndael128GCM_decrypt`: the ciphertext is the range of `cipherSize` bytes
of the response buffer behind the header. -/
structure DecryptCall where
  respMessage : Bytes
  cipherSize : UInt32
  deriving DecidableEq, Repr

/-- How `send_request_recv_response` gets along up to the decryption. -/
inductive Sent
  | returned (e : StxError)
  | threw
  | decrypts (call : DecryptCall)
  deriving DecidableEq, Repr

/-- The response buffer after the ocall: `[out, size = resp_message_size]` copies that many bytes
of the host. -/
def responseBuffer (maxOutBuffSize : UInt64) (content : Bytes) : Bytes :=
  CryptoPack.fit (sizeT (headerSize + maxOutBuffSize.toNat)) content

section UntilDecryption
variable (G : Gcm) (E : Surroundings)

/-- The part after the ocall. -/
def readResponse (buffer : Bytes) (maxRespMessageLength : ℕ) : Sent :=
  if pointerSize > maxRespMessageLength then .returned .invalidParameterError
  else if !E.newOutBuff (payloadSizeAt buffer).toNat then .threw
  else .decrypts ⟨buffer, payloadSizeAt buffer⟩

/-- The part after the encryption of the request. -/
def awaitResponse (reqMessage : SecureMessage) (maxOutBuffSize : UInt64) : Sent :=
  let respMessageSize := sizeT (headerSize + maxOutBuffSize.toNat)
  if !E.mallocResponse respMessageSize then .returned mallocError
  else
    match E.sendRequestOcall reqMessage maxOutBuffSize.toNat respMessageSize with
    | .ocallFails => .threw
    | .status e => .returned e
    | .ok content => readResponse E (responseBuffer maxOutBuffSize content) respMessageSize

def untilDecryption (s : DhSession) (inpBuff : Bytes) (maxOutBuffSize : UInt64) : Sent :=
  if !s.mSendRequestOcallSet || !s.mVerifyPeerEnclaveTrustSet then .returned .invalidParameterError
  else if !E.mallocRequest (sizeT (headerSize + inpBuff.length)) then .returned mallocError
  else
    match s.makeRequest G inpBuff with
    | .error e => .returned e
    | .ok reqMessage => awaitResponse E reqMessage maxOutBuffSize

end UntilDecryption

/-- The bound on the ciphertext, and that its range lies in the buffer. -/
structure DecryptCall.Bounded (call : DecryptCall) (maxOutBuffSize : UInt64) : Prop where
  size_le : call.cipherSize.toNat ≤ maxOutBuffSize.toNat
  inside : headerSize + call.cipherSize.toNat ≤ call.respMessage.length

/-- Everything up to the decryption succeeds, and the host gives this content. -/
structure Fills (G : Gcm) (E : Surroundings) (s : DhSession) (inpBuff : Bytes)
    (maxOutBuffSize : UInt64) (content : Bytes) : Prop where
  malloc_request : E.mallocRequest (sizeT (headerSize + inpBuff.length)) = true
  malloc_response : E.mallocResponse (sizeT (headerSize + maxOutBuffSize.toNat)) = true
  answer : ∃ reqMessage, s.makeRequest G inpBuff = .ok reqMessage ∧
    E.sendRequestOcall reqMessage maxOutBuffSize.toNat (sizeT (headerSize + maxOutBuffSize.toNat)) =
      .ok content
  long_enough : pointerSize ≤ sizeT (headerSize + maxOutBuffSize.toNat)
  new_out : E.newOutBuff (payloadSizeAt (responseBuffer maxOutBuffSize content)).toNat = true

section Bounds
variable {G : Gcm} {E : Surroundings} {s : DhSession} {inpBuff : Bytes} {maxOutBuffSize : UInt64}

lemma responseBuffer_length (content : Bytes) :
    (responseBuffer maxOutBuffSize content).length = sizeT (headerSize + maxOutBuffSize.toNat) :=
  CryptoPack.fit_length _ _

lemma sizeT_of_lt {n : ℕ} (h : n < 2 ^ 64) : sizeT n = n := Nat.mod_eq_of_lt h

lemma sizeT_of_wrap (h : 2 ^ 64 ≤ headerSize + maxOutBuffSize.toNat) :
    sizeT (headerSize + maxOutBuffSize.toNat) = headerSize + maxOutBuffSize.toNat - 2 ^ 64 := by
  have hmax := maxOutBuffSize.toNat_lt
  have hlt : headerSize + maxOutBuffSize.toNat - 2 ^ 64 < 2 ^ 64 := by
    unfold headerSize
    omega
  rw [sizeT, Nat.mod_eq_sub_mod h, Nat.mod_eq_of_lt hlt]

lemma readResponse_decrypts {buffer : Bytes} {n : ℕ} {call : DecryptCall} :
    readResponse E buffer n = .decrypts call ↔
      pointerSize ≤ n ∧ E.newOutBuff (payloadSizeAt buffer).toNat = true ∧
        call = ⟨buffer, payloadSizeAt buffer⟩ := by
  unfold readResponse
  by_cases hsize : pointerSize > n
  · rw [if_pos hsize]
    constructor
    · intro h
      cases h
    · rintro ⟨hle, -, -⟩
      exact absurd hle (Nat.not_le.mpr hsize)
  · rw [if_neg hsize]
    cases hnew : E.newOutBuff (payloadSizeAt buffer).toNat with
    | false =>
      constructor
      · intro h
        cases h
      · rintro ⟨-, hfalse, -⟩
        cases hfalse
    | true =>
      constructor
      · intro h
        cases h
        exact ⟨Nat.not_lt.mp hsize, rfl, rfl⟩
      · rintro ⟨-, -, rfl⟩
        rfl

lemma makeRequest_set {req : SecureMessage} (h : s.makeRequest G inpBuff = .ok req) :
    (!s.mSendRequestOcallSet || !s.mVerifyPeerEnclaveTrustSet) = false := by
  unfold DhSession.makeRequest at h
  split_ifs at h with hset
  exact Bool.eq_false_iff.mpr hset

/-- The decryption is reached exactly when nothing fails before it. -/
theorem untilDecryption_iff (call : DecryptCall) :
    untilDecryption G E s inpBuff maxOutBuffSize = .decrypts call ↔
      ∃ content, Fills G E s inpBuff maxOutBuffSize content ∧
        call = ⟨responseBuffer maxOutBuffSize content,
          payloadSizeAt (responseBuffer maxOutBuffSize content)⟩ := by
  constructor
  · intro h
    unfold untilDecryption at h
    split_ifs at h with hset hreq
    split at h
    · cases h
    · rename_i req hmake
      unfold awaitResponse at h
      dsimp only at h
      split_ifs at h with hresp
      split at h
      · cases h
      · cases h
      · rename_i content hocall
        obtain ⟨hsize, hnew, hcall⟩ := readResponse_decrypts.mp h
        exact ⟨content, ⟨by simpa using hreq, by simpa using hresp, ⟨req, hmake, hocall⟩, hsize,
          hnew⟩, hcall⟩
  · rintro ⟨content, hfills, rfl⟩
    obtain ⟨req, hmake, hocall⟩ := hfills.answer
    have hread := readResponse_decrypts.mpr ⟨hfills.long_enough, hfills.new_out, rfl⟩
    simp only [untilDecryption, awaitResponse, makeRequest_set hmake, hfills.malloc_request, hmake,
      hfills.malloc_response, hocall, Bool.not_true, Bool.false_eq_true, if_false]
    exact hread

lemma bounded_iff (content : Bytes) :
    DecryptCall.Bounded ⟨responseBuffer maxOutBuffSize content,
        payloadSizeAt (responseBuffer maxOutBuffSize content)⟩ maxOutBuffSize ↔
      headerSize + maxOutBuffSize.toNat < 2 ^ 64 ∧
        (payloadSizeAt (responseBuffer maxOutBuffSize content)).toNat ≤ maxOutBuffSize.toNat := by
  constructor
  · rintro ⟨hle, hinside⟩
    refine ⟨?_, hle⟩
    by_contra hwrap
    have hmax := maxOutBuffSize.toNat_lt
    rw [responseBuffer_length, sizeT_of_wrap (Nat.not_lt.mp hwrap)] at hinside
    unfold headerSize at hinside
    omega
  · rintro ⟨hlt, hle⟩
    refine ⟨hle, ?_⟩
    rw [responseBuffer_length, sizeT_of_lt hlt]
    dsimp only
    omega

/-- A call that comes to the decryption goes on as the session of the enclave does with the
message in its buffer. -/
theorem receive_of_untilDecryption {O : Outside} {k : Keymgr} {call : DecryptCall}
    (hsession : k.mKeymgrSession = some s)
    (hhost : ∀ req content, E.sendRequestOcall req maxOutBuffSize.toNat
        (sizeT (headerSize + maxOutBuffSize.toNat)) = .ok content →
      O.sendRequest k.tick req = .ok (readMessage (responseBuffer maxOutBuffSize content)))
    (hcall : untilDecryption G E s inpBuff maxOutBuffSize = .decrypts call) :
    sendRequestRecvResponse G O inpBuff k =
        receive G O s (readMessage call.respMessage) (k.log (.request s)).ticked ∧
      (readMessage call.respMessage).payloadSize = call.cipherSize := by
  obtain ⟨content, hfills, rfl⟩ := (untilDecryption_iff call).mp hcall
  obtain ⟨req, hmake, hocall⟩ := hfills.answer
  refine ⟨?_, rfl⟩
  simp only [sendRequestRecvResponse, get_bind, hsession, modify_bind, hmake,
    hhost req content hocall]

lemma payloadSizeAt_responseBuffer (content : Bytes) (hcontent : 8 ≤ content.length)
    (hsize : pointerSize ≤ sizeT (headerSize + maxOutBuffSize.toNat)) :
    payloadSizeAt (responseBuffer maxOutBuffSize content) = payloadSizeAt content := by
  have hread (l : Bytes) : (l.drop 4).take 4 = (l.take 8).drop 4 := by rw [List.drop_take]
  have hmin : min 8 (sizeT (headerSize + maxOutBuffSize.toNat)) = 8 := min_eq_left hsize
  rw [payloadSizeAt, payloadSizeAt, hread, hread, responseBuffer, CryptoPack.fit, List.take_take,
    hmin, List.take_append_of_le_length hcontent]

/-- A host that always answers with this content, and memory that never runs out. -/
def answering (content : Bytes) : Surroundings where
  mallocRequest _ := true
  mallocResponse _ := true
  newOutBuff _ := true
  sendRequestOcall _ _ _ := .ok content

/-- A session of the parser enclave after its handshake. -/
def openSession : DhSession := ⟨true, true, demoKey, 0, 0, .active, demoId⟩

lemma answering_decrypts (content : Bytes) (hcontent : 8 ≤ content.length)
    (hsize : pointerSize ≤ sizeT (headerSize + maxOutBuffSize.toNat)) :
    untilDecryption Gcm.plain (answering content) openSession [] maxOutBuffSize =
      .decrypts ⟨responseBuffer maxOutBuffSize content, payloadSizeAt content⟩ := by
  refine (untilDecryption_iff _).mpr ⟨content, ⟨rfl, rfl, ⟨_, rfl, rfl⟩, hsize, rfl⟩, ?_⟩
  rw [payloadSizeAt_responseBuffer content hcontent hsize]

/-- The bound holds of one call exactly when the host has not named a larger payload and the size
of the buffer has not wrapped. It holds for every host exactly when `max_out_buff_size` leaves
room for every 32-bit size, or is so large that the wrapped size is below that of a pointer. -/
theorem response_use_bounded_iff (G : Gcm) (E : Surroundings) (s : DhSession) (inpBuff : Bytes)
    (maxOutBuffSize : UInt64) :
    ((∀ call, untilDecryption G E s inpBuff maxOutBuffSize = .decrypts call →
        call.Bounded maxOutBuffSize) ↔
      ∀ content, Fills G E s inpBuff maxOutBuffSize content →
        headerSize + maxOutBuffSize.toNat < 2 ^ 64 ∧
        (payloadSizeAt (responseBuffer maxOutBuffSize content)).toNat ≤ maxOutBuffSize.toNat) ∧
    ((∀ G E s inpBuff call, untilDecryption G E s inpBuff maxOutBuffSize = .decrypts call →
        call.Bounded maxOutBuffSize) ↔
      2 ^ 32 ≤ maxOutBuffSize.toNat + 1 ∧ headerSize + maxOutBuffSize.toNat < 2 ^ 64 ∨
      2 ^ 64 ≤ headerSize + maxOutBuffSize.toNat ∧
        headerSize + maxOutBuffSize.toNat < 2 ^ 64 + pointerSize) := by
  refine ⟨?_, ?_, ?_⟩
  · constructor
    · intro hbounded content hfills
      have hcall := (untilDecryption_iff _).mpr ⟨content, hfills, rfl⟩
      exact (bounded_iff content).mp (hbounded _ hcall)
    · intro hcontent call hcall
      obtain ⟨content, hfills, rfl⟩ := (untilDecryption_iff _).mp hcall
      exact (bounded_iff content).mpr (hcontent content hfills)
  · intro hbounded
    by_cases hsize : pointerSize ≤ sizeT (headerSize + maxOutBuffSize.toNat)
    · left
      have hall : (payloadSizeAt (List.replicate 8 255)).toNat + 1 = 2 ^ 32 := by decide
      have hcall := answering_decrypts (List.replicate 8 255) (by decide) hsize
      have hone := hbounded _ _ _ _ _ hcall
      have hread := payloadSizeAt_responseBuffer (List.replicate 8 255) (by decide) hsize
      rw [← hread] at hone
      obtain ⟨hlt, hle⟩ := (bounded_iff _).mp hone
      rw [hread] at hle
      exact ⟨by omega, hlt⟩
    · right
      have hwrap : 2 ^ 64 ≤ headerSize + maxOutBuffSize.toNat := by
        by_contra hlt
        rw [sizeT_of_lt (Nat.not_le.mp hlt)] at hsize
        unfold pointerSize headerSize at hsize
        omega
      rw [sizeT_of_wrap hwrap] at hsize
      exact ⟨hwrap, by omega⟩
  · intro hmax G E s inpBuff call hcall
    obtain ⟨content, hfills, rfl⟩ := (untilDecryption_iff _).mp hcall
    rcases hmax with ⟨hroom, hlt⟩ | ⟨hwrap, hshort⟩
    · have hpayload := (payloadSizeAt (responseBuffer maxOutBuffSize content)).toNat_lt
      exact (bounded_iff content).mpr ⟨hlt, by omega⟩
    · have hguard := hfills.long_enough
      rw [sizeT_of_wrap hwrap] at hguard
      omega

/-- A key request, and a host that names one byte more than the response may have. -/
theorem oversized_response_is_decrypted :
    ∃ call, untilDecryption Gcm.plain (answering (encode 4 0 ++ encode 4 (2 ^ 20 + 1)))
        openSession [] maxKeymgrResponseBufSize = .decrypts call ∧
      ¬ call.cipherSize.toNat ≤ maxKeymgrResponseBufSize.toNat ∧
      ¬ headerSize + call.cipherSize.toNat ≤ call.respMessage.length := by
  have hsize : pointerSize ≤ sizeT (headerSize + maxKeymgrResponseBufSize.toNat) := by decide
  refine ⟨_, answering_decrypts _ (by decide) hsize, by decide, ?_⟩
  rw [responseBuffer_length]
  decide

end Bounds
end PrivacyComputing.Analyzer
