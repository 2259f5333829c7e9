import PrivacyComputing.Calls
import PrivacyComputing.ChannelSession
import PrivacyComputing.RunsHistory

/-! The session of a parser enclave with the key manager: `keymgr_session`,
`dh_session_initiator` and the key requests of `keymgr_interface`. Whatever comes from
outside the enclave's own code is a function of the number of calls made so far. -/
namespace PrivacyComputing.Analyzer
open Calls Channel Runs

/-- How a call inside the enclave may fail: with a status that is returned, or by leaving
the enclave unusable (an exception that no ecall catches, a null pointer). -/
inductive Stop
  | status (e : StxError)
  | crash
  deriving DecidableEq, Repr

/-- An ocall may itself fail, and `ocall_cast` then throws; it may return an error status; or
it returns success. -/
inductive Answer (α : Type)
  | ocallFails
  | status (e : StxError)
  | ok (a : α)
  deriving DecidableEq, Repr

/-- The `km_*_ocall` functions, the Diffie-Hellman functions of the SGX SDK, and what a buffer
holds after a failed decryption. -/
structure Outside where
  dhInitSession : ℕ → Status
  sessionRequest : ℕ → Answer (Bytes × UInt32)
  procMsg1 : ℕ → (dhMsg1 : Bytes) → Except StxError Bytes
  exchangeReport : ℕ → (dhMsg2 : Bytes) → (sessionId : UInt32) → Answer Bytes
  procMsg3 : ℕ → (dhMsg3 : Bytes) → Except StxError (Bytes × EnclaveIdentity)
  sendRequest : ℕ → (reqMessage : SecureMessage) → Answer SecureMessage
  endSession : ℕ → (sessionId : UInt32) → Answer Unit
  unsetBuffer : ℕ → Bytes

/-- `handshake` is `create_session` reaching its end, `ready` the return of success from
`init_keymgr_session`, `request` the use of a session by `send_request_recv_response`. -/
inductive Event
  | handshake (aek : Bytes) (peer : EnclaveIdentity)
  | ready (session : DhSession)
  | request (session : DhSession)
  | closed (sessionId : UInt32)
  deriving DecidableEq, Repr

def Event.isClosed : Event → Bool
  | .closed _ => true
  | _ => false

/-- `keymgr_var`; the session pointer is null at first. -/
structure Keymgr where
  mKeymgrSession : Option DhSession
  tick : ℕ
  history : List Event
  deriving DecidableEq, Repr

def Keymgr.start : Keymgr := ⟨none, 0, []⟩

abbrev KeymgrM := EStateM Stop Keymgr

def Keymgr.log (k : Keymgr) (e : Event) : Keymgr := { k with history := e :: k.history }

def Keymgr.ticked (k : Keymgr) : Keymgr := { k with tick := k.tick + 1 }

def ocall (answer : ℕ → Answer α) : KeymgrM α := do
  let k ← get
  modify Keymgr.ticked
  match answer k.tick with
  | .ocallFails => throw .crash
  | .status e => throw (.status e)
  | .ok a => pure a

def sdk (result : ℕ → Except StxError α) : KeymgrM α := do
  let k ← get
  modify Keymgr.ticked
  match result k.tick with
  | .error e => throw (.status e)
  | .ok a => pure a

def kmVerifyPeerEnclaveTrust : Option EnclaveIdentity → Status
  | none => .error .invalidParameterError
  | some _ => .ok ()

/-- The session object that `init_keymgr_session` makes, before its handshake. -/
def newInitiator : DhSession :=
  { DhSession.new with mSendRequestOcallSet := true, mVerifyPeerEnclaveTrustSet := true }

/-- The end of `create_session`. -/
def Keymgr.establish (k : Keymgr) (aek : Bytes) (peer : EnclaveIdentity) (sessionId : UInt32) :
    Keymgr :=
  { k with
    mKeymgrSession := k.mKeymgrSession.map fun s => { s with
      mPeerIdentity := peer
      aek := aek
      mSessionId := sessionId
      counter := 0
      mStatus := .active }
    history := .handshake aek peer :: k.history }

/-- What a key request leaves in the buffers of its caller: nothing, two keys although it
returns an error, or the two keys it grants. -/
inductive KeyAnswer
  | unset (e : StxError)
  | failed (privateKey dianPkey : Bytes) (e : StxError)
  | granted (privateKey dianPkey : Bytes)
  deriving DecidableEq, Repr

section Methods
variable (c : CryptoPack) (G : Gcm) (O : Outside)

def createSession : KeymgrM Unit := do
  sdk O.dhInitSession
  let first ← ocall O.sessionRequest
  let dhMsg2 ← sdk fun t => O.procMsg1 t first.1
  let dhMsg3 ← ocall fun t => O.exchangeReport t dhMsg2 first.2
  let derived ← sdk fun t => O.procMsg3 t dhMsg3
  match kmVerifyPeerEnclaveTrust (some derived.2) with
  | .error _ => throw (.status .invalidSession)
  | .ok () => modify fun k => k.establish derived.1 derived.2 first.2

def Keymgr.returnsReady (k : Keymgr) : Keymgr :=
  match k.mKeymgrSession with
  | none => k
  | some s => k.log (.ready s)

def initKeymgrSession : KeymgrM Unit := do
  let k ← get
  match k.mKeymgrSession with
  | some _ => modify Keymgr.returnsReady
  | none => do
    modify fun k => { k with mKeymgrSession := some newInitiator }
    createSession O
    modify Keymgr.returnsReady

/-- `close_session` leaves the session object as it is. -/
def closeKeymgrSession : KeymgrM Unit := do
  let k ← get
  match k.mKeymgrSession with
  | none => throw .crash
  | some s => do
    ocall fun t => O.endSession t s.mSessionId
    modify fun k => k.log (.closed s.mSessionId)

/-- The part of `send_request_recv_response` after the ocall. The output buffer has the size
that the response names, whether or not the response can be opened. -/
def receive (s : DhSession) (resp : SecureMessage) : KeymgrM (Status × Bytes) := do
  let k ← get
  match s.openMessage G resp with
  | .error e => pure (.error e, CryptoPack.fit resp.payloadSize.toNat (O.unsetBuffer k.tick))
  | .ok data => do
    modify fun k => { k with mKeymgrSession := some (s.checkResponse G resp).2 }
    pure ((s.checkResponse G resp).1.map fun _ => (), CryptoPack.fit resp.payloadSize.toNat data)

def sendRequestRecvResponse (inpBuff : Bytes) : KeymgrM (Status × Bytes) := do
  let k ← get
  match k.mKeymgrSession with
  | none => throw .crash
  | some s => do
    modify fun k => (k.log (.request s)).ticked
    match s.makeRequest G inpBuff with
    | .error e => pure (.error e, [])
    | .ok reqMessage =>
      match O.sendRequest k.tick reqMessage with
      | .ocallFails => throw .crash
      | .status e => pure (.error e, [])
      | .ok resp => receive G O s resp

/-- `request_private_key_for_public_key` once the response is there. The size of the response
is checked before its status. -/
def checkKeys (pubkey : Bytes) (status : Status) (recvBytes : Bytes) : KeyAnswer :=
  if recvBytes.length ≠ privateKeySize + publicKeySize then .unset .eccInvalidSkeySize
  else
    let privateKey := recvBytes.take privateKeySize
    let dianPkey := recvBytes.drop privateKeySize
    match status with
    | .error e => .failed privateKey dianPkey e
    | .ok () =>
      match c.generatePkeyFromSkey privateKey with
      | .error e => .failed privateKey dianPkey e
      | .ok checkPkey =>
        if pubkey ≠ checkPkey then .failed privateKey dianPkey .kmgrSessionInconsistencyPkeySkey
        else .granted privateKey dianPkey

/-- `encode` is the marshalling of a `request_skey_from_pkey_pkg_t`. -/
def requestPrivateKeyForPublicKey (encode : Bytes → Bytes) (pubkey : Bytes) :
    KeymgrM KeyAnswer := do
  let received ← sendRequestRecvResponse G O (encode pubkey)
  pure (checkKeys c pubkey received.1 received.2)

theorem checkKeys_granted {pubkey recvBytes privateKey dianPkey : Bytes} {status : Status}
    (h : checkKeys c pubkey status recvBytes = .granted privateKey dianPkey) :
    c.generatePkeyFromSkey privateKey = .ok pubkey ∧ dianPkey.length = publicKeySize := by
  unfold checkKeys at h
  split_ifs at h with hsize
  dsimp only at h
  split at h
  · cases h
  · split at h
    · cases h
    · rename_i checkPkey hpkey
      split_ifs at h with heq
      cases h
      refine ⟨by rw [hpkey, not_not.mp heq], ?_⟩
      rw [List.length_drop, not_not.mp hsize]
      rfl

end Methods

end PrivacyComputing.Analyzer
