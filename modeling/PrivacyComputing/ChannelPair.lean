import PrivacyComputing.ChannelSession
import PrivacyComputing.RunsHistory

/-! One initiator and one responder that share a session key, with the host between
them. The host decides when the initiator's ocall returns and with what, and it
hands any message to the responder at any time. -/
namespace PrivacyComputing.Channel
open Runs LittleEndian

/-- What has happened on the channel. A request is logged with the bytes that were encrypted,
an invocation of the handler with the message it came from and the handler's result. -/
inductive Event
  | requested (m : SecureMessage) (data : Bytes)
  | handled (m : SecureMessage) (data : Bytes) (out : Option Bytes)
  | responded (m : SecureMessage) (data : Bytes)
  | accepted (data : Bytes)
  deriving DecidableEq, Repr

/-- The IV and the plain text of an event that encrypts. -/
def Event.encryption : Event → Option (Bytes × Bytes)
  | .requested m data | .responded m data => some (m.reserved, data)
  | .handled .. | .accepted _ => none

structure Pair where
  initiator : DhSession
  responder : DhSession
  pending : Option SecureMessage
  history : List Event
  deriving DecidableEq, Repr

/-- Both ends right after a handshake. -/
def Pair.start (aek : Bytes) (sessionId : UInt32) (responderId initiatorId : EnclaveIdentity) :
    Pair where
  initiator := ⟨true, true, aek, 0, sessionId, .active, responderId⟩
  responder := ⟨true, true, aek, 0, 0, .active, initiatorId⟩
  pending := none
  history := []

/-- The moves: the application sends a request, the pending ocall returns with an error or a
response, or the responder is called with a message; `out` is what its handler will do. -/
inductive Move
  | request (inpBuff : Bytes)
  | ocallReturns (answer : Except StxError SecureMessage)
  | serve (req : Option SecureMessage) (buffers : ReplyBuffers) (out : Option Bytes)
  deriving DecidableEq, Repr

section Machine
variable (G : Gcm)

def Pair.request (s : Pair) (inpBuff : Bytes) : Pair :=
  match s.pending, s.initiator.makeRequest G inpBuff with
  | none, .ok m => { s with
      pending := some m
      history := .requested m (cut inpBuff) :: s.history }
  | _, _ => s

def Pair.ocallReturns (s : Pair) (answer : Except StxError SecureMessage) : Pair :=
  match s.pending, answer with
  | none, _ => s
  | some _, .error _ => { s with pending := none }
  | some _, .ok resp =>
    match s.initiator.checkResponse G resp with
    | (.error _, initiator) => { s with
        initiator := initiator
        pending := none }
    | (.ok data, initiator) => { s with
        initiator := initiator
        pending := none
        history := .accepted data :: s.history }

def replyEvents (req : Option SecureMessage) (out : Option Bytes) (reply : Reply) : List Event :=
  match req, reply.handled with
  | some m, some data =>
    match out, reply.result with
    | some respStr, .ok r => [.responded r (cut respStr), .handled m data out]
    | _, _ => [.handled m data out]
  | _, _ => []

def Pair.serve (s : Pair) (req : Option SecureMessage) (buffers : ReplyBuffers)
    (out : Option Bytes) : Pair :=
  let r := s.responder.generateResponse G req (fun _ _ => out) buffers
  { s with
    responder := r.2
    history := replyEvents req out r.1 ++ s.history }

def Pair.step (s : Pair) : Move → Pair
  | .request inpBuff => s.request G inpBuff
  | .ocallReturns answer => s.ocallReturns G answer
  | .serve req buffers out => s.serve G req buffers out

/-- Everything a move can do to the pair. -/
inductive StepSpec (s : Pair) : Move → Pair → Prop
  | idle (move : Move) : StepSpec s move s
  | requested (inpBuff : Bytes) (m : SecureMessage) (free : s.pending = none)
      (hseal : s.initiator.sealMessage G inpBuff = .ok m) :
      StepSpec s (.request inpBuff) { s with
        pending := some m
        history := .requested m (cut inpBuff) :: s.history }
  | dropped (answer : Except StxError SecureMessage) :
      StepSpec s (.ocallReturns answer) { s with pending := none }
  | accepted (m resp : SecureMessage) (data : Bytes) (waiting : s.pending = some m)
      (opened : s.initiator.openMessage G resp = .ok data)
      (fresh : decode (resp.reserved.take 4) = (s.initiator.counter + 1).toNat) :
      StepSpec s (.ocallReturns (.ok resp)) { s with
        initiator := { s.initiator with counter := s.initiator.counter + 1 }
        pending := none
        history := .accepted data :: s.history }
  | handled (m : SecureMessage) (buffers : ReplyBuffers) (out : Option Bytes) (data : Bytes)
      (counter : UInt32) (opened : s.responder.openMessage G m = .ok data)
      (hcounter : counter = s.responder.counter ∨ counter = s.responder.counter + 1) :
      StepSpec s (.serve (some m) buffers out) { s with
        responder := { s.responder with counter := counter }
        history := .handled m data out :: s.history }
  | answered (m : SecureMessage) (buffers : ReplyBuffers) (respStr data : Bytes)
      (r : SecureMessage) (opened : s.responder.openMessage G m = .ok data)
      (fits : respStr.length ≤ buffers.maxPayloadSize)
      (hseal : { s.responder with counter := s.responder.counter + 1 }.sealMessage G respStr =
        .ok r) :
      StepSpec s (.serve (some m) buffers (some respStr)) { s with
        responder := { s.responder with counter := s.responder.counter + 1 }
        history := .responded r (cut respStr) :: .handled m data (some respStr) :: s.history }

lemma makeRequest_ok {s : DhSession} {inpBuff : Bytes} {m : SecureMessage}
    (h : s.makeRequest G inpBuff = .ok m) : s.sealMessage G inpBuff = .ok m := by
  unfold DhSession.makeRequest at h
  split_ifs at h
  exact h

theorem serve_spec (s : Pair) (req : Option SecureMessage) (buffers : ReplyBuffers)
    (out : Option Bytes) : StepSpec G s (.serve req buffers out) (s.serve G req buffers out) := by
  have hspec := generateResponse_spec G s.responder req (fun _ _ => out) buffers
  unfold Pair.serve
  generalize s.responder.generateResponse G req (fun _ _ => out) buffers = r at hspec ⊢
  obtain ⟨reply, responder⟩ := r
  dsimp only at hspec ⊢
  cases hspec with
  | refused e => cases req <;> exact .idle _
  | failed m data result hreq active opened none_sent =>
    subst hreq
    have hevents : replyEvents (some m) out ⟨some data, result⟩ = [.handled m data out] := by
      unfold replyEvents
      cases out with
      | none => rfl
      | some respStr =>
        cases result with
        | ok r => exact absurd rfl (none_sent r)
        | err e => rfl
        | throws => rfl
    rw [hevents]
    exact .handled m buffers out data _ opened (.inl rfl)
  | lost m data e hreq active opened =>
    subst hreq
    have hevents : replyEvents (some m) out ⟨some data, .err e⟩ = [.handled m data out] := by
      cases out <;> rfl
    rw [hevents]
    exact .handled m buffers out data _ opened (.inr rfl)
  | answered m data respStr r hreq active opened hout fits hseal =>
    subst hreq hout
    exact .answered m buffers respStr data r opened fits hseal

theorem step_spec (s : Pair) (move : Move) : StepSpec G s move (s.step G move) := by
  cases move with
  | request inpBuff =>
    unfold Pair.step Pair.request
    cases hp : s.pending with
    | some m => exact .idle _
    | none =>
      cases hm : s.initiator.makeRequest G inpBuff with
      | error e =>
        simp only [hm]
        exact .idle _
      | ok m =>
        simp only [hm]
        exact .requested inpBuff m hp (makeRequest_ok G hm)
  | ocallReturns answer =>
    unfold Pair.step Pair.ocallReturns
    cases hp : s.pending with
    | none => exact .idle _
    | some m =>
      cases answer with
      | error e => exact .dropped _
      | ok resp =>
        obtain ⟨e, he⟩ | ⟨data, hd, opened, fresh⟩ := checkResponse_cases G s.initiator resp
        · simp only [he]
          exact .dropped _
        · simp only [hd]
          exact .accepted m resp data hp opened fresh
  | serve req buffers out => exact serve_spec G s req buffers out

end Machine
end PrivacyComputing.Channel
