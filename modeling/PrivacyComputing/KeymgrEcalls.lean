import PrivacyComputing.ChannelResponder

/-! The channel ecalls of the key manager enclave with what they return. `dh_resp_session` is made
by whichever of them comes first; only `msession_request` then installs the verifier. -/
namespace PrivacyComputing.Channel
open Runs

/-- An instance together with its copy of the responder's verifier, which may be an empty
function. -/
structure ResponderSession (D : Type*) extends ResponderInstance D where
  verifier : Bool

structure DhResponder (D : Type*) where
  mAllSessions : UInt32 → Option (ResponderSession D)
  mNextSessionId : UInt32
  verifier : Bool

/-- `sgx_dh_init_session` and `sgx_dh_responder_gen_msg1` draw message 1 and the handshake
state. -/
inductive Ecall (D Msg1 Msg2 : Type*)
  | msessionRequest (pointers : Bool) (gen : Except StxError (Msg1 × D))
  | mexchangeReport (msg2 : Option Msg2) (msg3 : Bool) (sessionId : UInt32)
  | mgenerateResponse (req : Option SecureMessage) (buffers : ReplyBuffers) (sessionId : UInt32)
  | mendSession (sessionId : UInt32)

/-- What an ecall gives back. A failed session request may have written the session number. -/
inductive EcallResult (Msg1 Msg3 : Type*)
  | session (result : Except StxError Msg1) (sessionId : Option UInt32)
  | exchange (result : Except StxError Msg3)
  | response (handled : Option Bytes) (result : Except StxError SecureMessage)
  | ended (result : Status)
  deriving DecidableEq

def EcallResult.failed {Msg1 Msg3 : Type*} : EcallResult Msg1 Msg3 → Bool
  | .session result _ => !result.toBool
  | .exchange result => !result.toBool
  | .response _ result => !result.toBool
  | .ended result => !result.toBool

/-- The `catch` clause of the ecalls. -/
def caught {α : Type*} : Outcome α → Except StxError α
  | .ok a => .ok a
  | .err e => .error e
  | .throws => .error .errorUnexpected

section Ecalls
variable {D Msg1 Msg2 Msg3 : Type*} (G : Gcm) (sdk : ResponderSdk D Msg2 Msg3)
  (handlePkg : Bytes → DhSession → Option Bytes)

def DhResponder.make (verifier : Bool) : DhResponder D := ⟨fun _ => none, 0, verifier⟩

def DhResponder.store (r : DhResponder D) (sessionId : UInt32) (p : ResponderSession D) :
    DhResponder D :=
  { r with mAllSessions := Function.update r.mAllSessions sessionId (some p) }

/-- The session number is written and the counter advanced before anything can fail, and
`std::map::insert` keeps an entry that is there. -/
def DhResponder.sessionRequest (r : DhResponder D) (pointers : Bool)
    (gen : Except StxError (Msg1 × D)) : EcallResult Msg1 Msg3 × DhResponder D :=
  if !pointers then (.session (.error .invalidParameterError) none, r)
  else
    let sessionId := r.mNextSessionId
    let r := { r with mNextSessionId := sessionId + 1 }
    match gen with
    | .error e => (.session (.error e) (some sessionId), r)
    | .ok (msg1, d) => (.session (.ok msg1) (some sessionId),
        r.store sessionId ((r.mAllSessions sessionId).getD ⟨.new d, r.verifier⟩))

/-- Calling an empty verifier throws, after the SDK has worked on the handshake state. -/
def ResponderSession.exchangeReport (p : ResponderSession D) (msg2 : Msg2) :
    Outcome Msg3 × ResponderSession D :=
  match sdk.procMsg2 msg2 p.dhSession with
  | (.error e, d) => (.err e, { p with dhSession := d })
  | (.ok (msg3, aek, identity), d) =>
    if !p.verifier then (.throws, { p with dhSession := d })
    else
      match sdk.verifyPeerEnclaveTrust identity with
      | .error _ => (.err .invalidSession, { p with dhSession := d })
      | .ok () => (.ok msg3, { p with
          session := { p.session with
            mStatus := .active
            counter := 0
            aek := aek
            mPeerIdentity := identity }
          dhSession := d })

def DhResponder.exchangeReport (r : DhResponder D) (msg2 : Option Msg2) (msg3 : Bool)
    (sessionId : UInt32) : Outcome Msg3 × DhResponder D :=
  match r.mAllSessions sessionId with
  | none => (.err .invalidSession, r)
  | some p =>
    if p.session.mStatus ≠ .inProgress then (.err .invalidSession, r)
    else
      match msg2 with
      | none => (.err .invalidParameterError, r)
      | some m =>
        if !msg3 then (.err .invalidParameterError, r)
        else
          let exchanged := p.exchangeReport sdk m
          (exchanged.1, r.store sessionId exchanged.2)

def DhResponder.generateResponse (r : DhResponder D) (req : Option SecureMessage)
    (buffers : ReplyBuffers) (sessionId : UInt32) : Reply × DhResponder D :=
  match r.mAllSessions sessionId with
  | none => (⟨none, .err .invalidSession⟩, r)
  | some p =>
    let replied := p.session.generateResponse G req handlePkg buffers
    (replied.1, r.store sessionId { p with session := replied.2 })

def DhResponder.endSession (r : DhResponder D) (sessionId : UInt32) : Status × DhResponder D :=
  match r.mAllSessions sessionId with
  | none => (.error .invalidSession, r)
  | some _ =>
    (.ok (), { r with mAllSessions := Function.update r.mAllSessions sessionId none })

def DhResponder.call (r : DhResponder D) :
    Ecall D Msg1 Msg2 → EcallResult Msg1 Msg3 × DhResponder D
  | .msessionRequest pointers gen => r.sessionRequest pointers gen
  | .mexchangeReport msg2 msg3 sessionId =>
    let done := r.exchangeReport sdk msg2 msg3 sessionId
    (.exchange (caught done.1), done.2)
  | .mgenerateResponse req buffers sessionId =>
    let done := r.generateResponse G handlePkg req buffers sessionId
    (.response done.1.handled (caught done.1.result), done.2)
  | .mendSession sessionId =>
    let done := r.endSession sessionId
    (.ended done.1, done.2)

/-- The ecalls that work on a session which is there already. -/
def Ecall.followsUp : Ecall D Msg1 Msg2 → Bool
  | .msessionRequest .. => false
  | _ => true

/-- The state is `dh_resp_session`, null at first. Every ecall makes a responder if there is none,
but only `msession_request` sets its verifier. -/
def ecall (s : Option (DhResponder D)) (call : Ecall D Msg1 Msg2) :
    EcallResult Msg1 Msg3 × Option (DhResponder D) :=
  let done := (s.getD (.make (!call.followsUp))).call G sdk handlePkg call
  (done.1, some done.2)

/-- The state after an ecall. -/
def afterEcall (s : Option (DhResponder D)) (call : Ecall D Msg1 Msg2) :
    Option (DhResponder D) :=
  (ecall G sdk handlePkg s call).2

def Fails (s : Option (DhResponder D)) (call : Ecall D Msg1 Msg2) : Prop :=
  call.followsUp = true ∧ (ecall G sdk handlePkg s call).1.failed = true

/-- Whatever is called later returns what it would have returned without these calls. -/
def NoTrace (s : Option (DhResponder D)) (calls : List (Ecall D Msg1 Msg2)) : Prop :=
  ∀ later : List (Ecall D Msg1 Msg2),
    outputs (ecall G sdk handlePkg) (run (afterEcall G sdk handlePkg) s calls) later =
      outputs (ecall G sdk handlePkg) s later

/-- The call does not come to spend the handshake of a session with a message 2 that is then
refused, nor a nonce on a response that then cannot be encrypted. -/
def SparesSession (r : DhResponder D) : Ecall D Msg1 Msg2 → Prop
  | .mexchangeReport (some msg2) true sessionId =>
      ∀ p, r.mAllSessions sessionId = some p → p.session.mStatus = .inProgress →
        (sdk.procMsg2 msg2 p.dhSession).2 = p.dhSession
  | .mgenerateResponse (some req) _ sessionId =>
      ∀ p data respStr, r.mAllSessions sessionId = some p →
        p.session.openMessage G req = .ok data → handlePkg data p.session = some respStr →
        ∃ m, { p.session with counter := p.session.counter + 1 }.sealMessage G respStr = .ok m
  | _ => True

/-- The responder is there, and the call spares its session. -/
def Harmless (s : Option (DhResponder D)) (call : Ecall D Msg1 Msg2) : Prop :=
  ∃ r, s = some r ∧ SparesSession G sdk handlePkg r call

lemma store_self {r : DhResponder D} {sessionId : UInt32} {p : ResponderSession D}
    (h : r.mAllSessions sessionId = some p) : r.store sessionId p = r := by
  unfold DhResponder.store
  rw [← h, Function.update_eq_self]

/-- An exchange that does not succeed changes the handshake state at most. -/
lemma exchangeReport_failed {p : ResponderSession D} {msg2 : Msg2}
    (h : ∀ msg3, (p.exchangeReport sdk msg2).1 ≠ .ok msg3) :
    (p.exchangeReport sdk msg2).2 =
      { p with dhSession := (sdk.procMsg2 msg2 p.dhSession).2 } := by
  revert h
  unfold ResponderSession.exchangeReport
  rcases sdk.procMsg2 msg2 p.dhSession with ⟨_ | ⟨msg3, aek, identity⟩, d⟩
  · intro _
    rfl
  · dsimp only
    split_ifs
    · intro _
      rfl
    · cases sdk.verifyPeerEnclaveTrust identity with
      | error e =>
        intro _
        rfl
      | ok u =>
        intro h
        exact absurd rfl (h msg3)

/-- A session is as before after a response that was not lost in encryption. -/
lemma generateResponse_failed {s : DhSession} {req : Option SecureMessage}
    {handler : Bytes → DhSession → Option Bytes} {buffers : ReplyBuffers}
    (hseal : ∀ m data respStr, req = some m → s.openMessage G m = .ok data →
      handler data s = some respStr →
      ∃ m', { s with counter := s.counter + 1 }.sealMessage G respStr = .ok m')
    (h : ∀ m, (s.generateResponse G req handler buffers).1.result ≠ .ok m) :
    (s.generateResponse G req handler buffers).2 = s := by
  revert h
  unfold DhSession.generateResponse
  cases req with
  | none => exact fun _ => rfl
  | some m =>
    dsimp only
    split_ifs
    · exact fun _ => rfl
    · exact fun _ => rfl
    · exact fun _ => rfl
    · cases hopen : s.openMessage G m with
      | error e => exact fun _ => rfl
      | ok data =>
        cases hout : handler data s with
        | none => simp [hout]
        | some respStr =>
          obtain ⟨m', hm'⟩ := hseal m data respStr rfl hopen hout
          simp only [hout]
          unfold DhSession.respond
          split_ifs
          · exact fun _ => rfl
          · exact fun _ => rfl
          · dsimp only
            rw [hm']
            exact fun h => absurd rfl (h m')

lemma caught_ne_ok {α : Type*} {o : Outcome α} (h : (!(caught o).toBool) = true) (a : α) :
    o ≠ .ok a := by
  rintro rfl
  cases h

lemma exchange_keeps {r : DhResponder D} {msg2 : Option Msg2} {msg3 : Bool} {sid : UInt32}
    (hspares : SparesSession G sdk handlePkg r
      (.mexchangeReport msg2 msg3 sid : Ecall D Msg1 Msg2))
    (hfailed : ∀ m, (r.exchangeReport sdk msg2 msg3 sid).1 ≠ .ok m) :
    (r.exchangeReport sdk msg2 msg3 sid).2 = r := by
  revert hfailed
  unfold DhResponder.exchangeReport
  cases hp : r.mAllSessions sid with
  | none => exact fun _ => rfl
  | some p =>
    by_cases hstatus : p.session.mStatus = .inProgress
    · cases msg2 with
      | none => simp [hstatus]
      | some m =>
        cases msg3 with
        | false => simp [hstatus]
        | true =>
          simp only [hstatus, ne_eq, not_true_eq_false, if_false, Bool.not_true,
            Bool.false_eq_true]
          intro hfailed
          rw [exchangeReport_failed sdk hfailed, hspares p hp hstatus]
          exact store_self hp
    · simp [hstatus]

lemma response_keeps {r : DhResponder D} {req : Option SecureMessage} {buffers : ReplyBuffers}
    {sid : UInt32}
    (hspares : SparesSession G sdk handlePkg r
      (.mgenerateResponse req buffers sid : Ecall D Msg1 Msg2))
    (hfailed : ∀ m, (r.generateResponse G handlePkg req buffers sid).1.result ≠ .ok m) :
    (r.generateResponse G handlePkg req buffers sid).2 = r := by
  revert hfailed
  unfold DhResponder.generateResponse
  cases hp : r.mAllSessions sid with
  | none => exact fun _ => rfl
  | some p =>
    intro hfailed
    have hsame := generateResponse_failed G (fun m data respStr hreq => by
      subst hreq
      exact hspares p data respStr hp) hfailed
    simp only [hsame]
    exact store_self hp

theorem harmless_keeps {s : Option (DhResponder D)} {call : Ecall D Msg1 Msg2}
    (hfails : Fails G sdk handlePkg s call) (hharm : Harmless G sdk handlePkg s call) :
    afterEcall G sdk handlePkg s call = s := by
  obtain ⟨r, rfl, hspares⟩ := hharm
  obtain ⟨hfollows, hfailed⟩ := hfails
  cases call with
  | msessionRequest pointers gen => cases hfollows
  | mexchangeReport msg2 msg3 sid =>
    exact congrArg some (exchange_keeps G sdk handlePkg hspares (caught_ne_ok hfailed))
  | mgenerateResponse req buffers sid =>
    exact congrArg some (response_keeps G sdk handlePkg hspares (caught_ne_ok hfailed))
  | mendSession sid =>
    revert hfailed
    simp only [afterEcall, ecall, DhResponder.call, EcallResult.failed, Option.getD_some,
      DhResponder.endSession]
    cases r.mAllSessions sid with
    | none => exact fun _ => rfl
    | some p =>
      intro hfailed
      cases hfailed

/-- Before the first session request the other ecalls leave a responder without verifier. -/
lemma afterEcall_empty {s : Option (DhResponder D)} (hs : s.getD (.make false) = .make false)
    {call : Ecall D Msg1 Msg2} (hfollows : call.followsUp = true) :
    afterEcall G sdk handlePkg s call = some (.make false) := by
  rw [afterEcall, ecall, hfollows, Bool.not_true, hs]
  cases call with
  | msessionRequest pointers gen => cases hfollows
  | mexchangeReport msg2 msg3 sid => rfl
  | mgenerateResponse req buffers sid => rfl
  | mendSession sid => rfl

lemma run_empty {s : Option (DhResponder D)} (hs : s.getD (.make false) = .make false)
    {call : Ecall D Msg1 Msg2} {calls : List (Ecall D Msg1 Msg2)}
    (hfails : Along (afterEcall G sdk handlePkg) (Fails G sdk handlePkg) s (call :: calls)) :
    run (afterEcall G sdk handlePkg) s (call :: calls) = some (.make false) := by
  induction calls generalizing s call with
  | nil => exact afterEcall_empty G sdk handlePkg hs hfails.1.1
  | cons next calls ih =>
    have hnext := afterEcall_empty G sdk handlePkg hs hfails.1.1
    rw [run_cons]
    exact ih (by rw [hnext]; rfl) hfails.2

/-- A handshake over a new session, whose message 2 the SDK accepts. -/
def handshake (msg1 : Msg1) (d : D) (msg2 : Msg2) : List (Ecall D Msg1 Msg2) :=
  [.msessionRequest true (.ok (msg1, d)), .mexchangeReport (some msg2) true 0]

lemma handshake_verified {msg1 : Msg1} {d d' : D} {msg2 : Msg2} {msg3 : Msg3} {aek : Bytes}
    {identity : EnclaveIdentity} (h : sdk.procMsg2 msg2 d = (.ok (msg3, aek, identity), d')) :
    outputs (ecall G sdk handlePkg) none (handshake msg1 d msg2) =
      [.session (.ok msg1) (some 0), .exchange
        (match sdk.verifyPeerEnclaveTrust identity with
          | .error _ => .error .invalidSession
          | .ok () => .ok msg3)] := by
  cases hv : sdk.verifyPeerEnclaveTrust identity <;>
    simp [outputs, handshake, ecall, DhResponder.call, Ecall.followsUp, DhResponder.sessionRequest,
      DhResponder.exchangeReport, DhResponder.make, DhResponder.store, ResponderInstance.new,
      DhSession.new, ResponderSession.exchangeReport, h, hv, caught]

lemma handshake_unverified {msg1 : Msg1} {d d' : D} {msg2 : Msg2} {msg3 : Msg3} {aek : Bytes}
    {identity : EnclaveIdentity} (h : sdk.procMsg2 msg2 d = (.ok (msg3, aek, identity), d')) :
    outputs (ecall G sdk handlePkg) (some (.make false)) (handshake msg1 d msg2) =
      [.session (.ok msg1) (some 0), .exchange (.error .errorUnexpected)] := by
  simp [outputs, handshake, ecall, DhResponder.call, Ecall.followsUp, DhResponder.sessionRequest,
    DhResponder.exchangeReport, DhResponder.make, DhResponder.store, ResponderInstance.new,
    DhSession.new, ResponderSession.exchangeReport, h, caught]

/-- Failed calls that spare their sessions leave no trace once the responder is there. Before
that every failed call does. -/
theorem failed_ecalls_leave_no_trace {msg2 : Msg2} {d d' : D} {msg3 : Msg3} {aek : Bytes}
    {identity : EnclaveIdentity} (msg1 : Msg1)
    (haccepts : sdk.procMsg2 msg2 d = (.ok (msg3, aek, identity), d'))
    (s : Option (DhResponder D)) (calls : List (Ecall D Msg1 Msg2))
    (hfails : Along (afterEcall G sdk handlePkg) (Fails G sdk handlePkg) s calls) :
    (Along (afterEcall G sdk handlePkg) (Harmless G sdk handlePkg) s calls →
        NoTrace G sdk handlePkg s calls) ∧
      (s = none → (NoTrace G sdk handlePkg s calls ↔ calls = [])) := by
  constructor
  · intro hharm later
    have hsame : run (afterEcall G sdk handlePkg) s calls = s := by
      have hkeeps : ∀ (t) (call : Ecall D Msg1 Msg2), t = s → Fails G sdk handlePkg t call ∧
          Harmless G sdk handlePkg t call → afterEcall G sdk handlePkg t call = s := by
        rintro t call rfl ⟨hcall, hspares⟩
        exact harmless_keeps G sdk handlePkg hcall hspares
      exact run_invariant hkeeps rfl (hfails.and hharm)
    rw [hsame]
  · rintro rfl
    constructor
    · intro htrace
      cases calls with
      | nil => rfl
      | cons call calls =>
        have hlater := htrace (handshake msg1 d msg2)
        rw [run_empty G sdk handlePkg rfl hfails, handshake_verified G sdk handlePkg haccepts,
          handshake_unverified G sdk handlePkg haccepts] at hlater
        cases hv : sdk.verifyPeerEnclaveTrust identity <;> simp [hv] at hlater
    · rintro rfl later
      rfl

/-- The responder of the handshake argument has the same sessions, and every verifier is set. -/
structure Tracks (r : DhResponder D) (s : Responder D Msg2) : Prop where
  next : s.mNextSessionId = r.mNextSessionId
  table : ∀ sid, s.mAllSessions sid = (r.mAllSessions sid).map (·.toResponderInstance)
  verifier : r.verifier = true
  verifiers : ∀ sid p, r.mAllSessions sid = some p → p.verifier = true

/-- What the handler does on a request for this session. -/
def DhResponder.handlerOutput (r : DhResponder D) (req : Option SecureMessage)
    (sessionId : UInt32) : Option Bytes :=
  match r.mAllSessions sessionId, req with
  | some p, some m =>
    match p.session.openMessage G m with
    | .ok data => handlePkg data p.session
    | .error _ => none
  | _, _ => none

def DhResponder.asCall (r : DhResponder D) : Ecall D Msg1 Msg2 → ResponderCall D Msg2
  | .msessionRequest pointers gen => .sessionRequest pointers (gen.map Prod.snd)
  | .mexchangeReport msg2 msg3 sessionId => .exchangeReport msg2 msg3 sessionId
  | .mgenerateResponse req buffers sessionId =>
    .generateResponse req buffers sessionId (r.handlerOutput G handlePkg req sessionId)
  | .mendSession sessionId => .endSession sessionId

lemma Tracks.store {r : DhResponder D} {s : Responder D Msg2} (h : Tracks r s) (sid : UInt32)
    {p : ResponderSession D} (hp : p.verifier = true) :
    Tracks (r.store sid p) (s.store sid p.toResponderInstance) := by
  refine ⟨h.next, ?_, h.verifier, ?_⟩
  · intro sid'
    by_cases heq : sid' = sid
    · simp [DhResponder.store, Responder.store, heq]
    · simp [DhResponder.store, Responder.store, heq, h.table]
  · intro sid' p' hp'
    by_cases heq : sid' = sid
    · simp only [DhResponder.store, heq, Function.update_self, Option.some.injEq] at hp'
      rw [← hp', hp]
    · simp only [DhResponder.store, ne_eq, heq, not_false_eq_true, Function.update_of_ne] at hp'
      exact h.verifiers sid' p' hp'

lemma Tracks.log {r : DhResponder D} {s : Responder D Msg2} (h : Tracks r s)
    (event : ResponderEvent D Msg2) : Tracks r (s.log event) :=
  ⟨h.next, h.table, h.verifier, h.verifiers⟩

lemma Tracks.sessionRequest {r : DhResponder D} {s : Responder D Msg2} (h : Tracks r s)
    (pointers : Bool) (gen : Except StxError (Msg1 × D)) :
    Tracks (r.sessionRequest pointers gen : EcallResult Msg1 Msg3 × DhResponder D).2
      (s.sessionRequest pointers (gen.map Prod.snd)) := by
  cases pointers with
  | false => exact h
  | true =>
    have hcounted : Tracks { r with mNextSessionId := r.mNextSessionId + 1 }
        { s.log (.issued s.mNextSessionId) with mNextSessionId := s.mNextSessionId + 1 } := by
      refine ⟨?_, h.table, h.verifier, h.verifiers⟩
      rw [h.next]
    cases gen with
    | error e => exact hcounted
    | ok made =>
      have hsame : ((r.mAllSessions r.mNextSessionId).getD
          ⟨.new made.2, r.verifier⟩).toResponderInstance =
          (s.mAllSessions s.mNextSessionId).getD (.new made.2) := by
        rw [h.next, h.table]
        cases r.mAllSessions r.mNextSessionId <;> rfl
      have hset : ((r.mAllSessions r.mNextSessionId).getD
          ⟨.new made.2, r.verifier⟩).verifier = true := by
        cases hp : r.mAllSessions r.mNextSessionId with
        | none => exact h.verifier
        | some p => exact h.verifiers _ p hp
      have hstored := hcounted.store r.mNextSessionId hset
      rw [hsame] at hstored
      change Tracks _ (Responder.store { s.log (.issued s.mNextSessionId) with
        mNextSessionId := s.mNextSessionId + 1 } s.mNextSessionId
          ((s.mAllSessions s.mNextSessionId).getD (.new made.2)))
      rw [h.next] at hstored ⊢
      exact hstored

lemma exchangeReport_instance {p : ResponderSession D} (hset : p.verifier = true) (msg2 : Msg2) :
    (p.exchangeReport sdk msg2).2.toResponderInstance =
        (p.toResponderInstance.exchangeReport sdk msg2).2 ∧
      (p.exchangeReport sdk msg2).2.verifier = true := by
  unfold ResponderSession.exchangeReport ResponderInstance.exchangeReport
  rcases sdk.procMsg2 msg2 p.dhSession with ⟨_ | ⟨msg3, aek, identity⟩, d⟩
  · exact ⟨rfl, hset⟩
  · cases hverify : sdk.verifyPeerEnclaveTrust identity <;> simp [hset, hverify]

lemma Tracks.exchangeReport {r : DhResponder D} {s : Responder D Msg2} (h : Tracks r s)
    (msg2 : Option Msg2) (msg3 : Bool) (sid : UInt32) :
    Tracks (r.exchangeReport sdk msg2 msg3 sid).2 (s.exchangeReport sdk msg2 msg3 sid) := by
  unfold DhResponder.exchangeReport Responder.exchangeReport
  cases hp : r.mAllSessions sid with
  | none =>
    simp only [h.table, hp, Option.map_none]
    exact h
  | some p =>
    simp only [h.table, hp, Option.map_some]
    split_ifs
    · exact h
    · cases msg2 with
      | none => exact h
      | some m => exact h
    · cases msg2 with
      | none => exact h
      | some m =>
        obtain ⟨hinstance, hverifier⟩ := exchangeReport_instance sdk (h.verifiers sid p hp) m
        have hstored := h.store sid hverifier
        rw [hinstance] at hstored
        dsimp only
        generalize p.toResponderInstance.exchangeReport sdk m = exchanged at hstored ⊢
        rcases exchanged with ⟨_ | ⟨msg3', aek, identity⟩, p'⟩
        · exact hstored
        · exact hstored.log _

/-- The handler is asked once, about the data of the request. -/
lemma generateResponse_handler (s : DhSession) (req : Option SecureMessage)
    (handler : Bytes → DhSession → Option Bytes) (buffers : ReplyBuffers) {out : Option Bytes}
    (hout : ∀ m data, req = some m → s.openMessage G m = .ok data → handler data s = out) :
    s.generateResponse G req handler buffers =
      s.generateResponse G req (fun _ _ => out) buffers := by
  unfold DhSession.generateResponse
  cases req with
  | none => rfl
  | some m =>
    dsimp only
    cases hopen : s.openMessage G m with
    | error e => simp only
    | ok data => simp only [hout m data rfl hopen]

lemma Tracks.generateResponse {r : DhResponder D} {s : Responder D Msg2} (h : Tracks r s)
    (req : Option SecureMessage) (buffers : ReplyBuffers) (sid : UInt32) :
    Tracks (r.generateResponse G handlePkg req buffers sid).2
      (s.generateResponse G req buffers sid (r.handlerOutput G handlePkg req sid)) := by
  unfold DhResponder.generateResponse Responder.generateResponse
  cases hp : r.mAllSessions sid with
  | none =>
    simp only [h.table, hp, Option.map_none]
    exact h
  | some p =>
    have hout : ∀ m data, req = some m → p.session.openMessage G m = .ok data →
        handlePkg data p.session = r.handlerOutput G handlePkg req sid := by
      rintro m data rfl hopen
      simp only [DhResponder.handlerOutput, hp, hopen]
    simp only [h.table, hp, Option.map_some,
      generateResponse_handler G p.session req handlePkg buffers hout]
    rcases p.session.generateResponse G req
      (fun _ _ => r.handlerOutput G handlePkg req sid) buffers with ⟨⟨_ | data, result⟩, session⟩
    · exact h.store sid (p := { p with session := session }) (h.verifiers sid p hp)
    · have hstored := h.store sid (p := { p with session := session }) (h.verifiers sid p hp)
      exact hstored.log _

lemma Tracks.endSession {r : DhResponder D} {s : Responder D Msg2} (h : Tracks r s)
    (sid : UInt32) : Tracks (r.endSession sid).2 (s.endSession sid) := by
  unfold DhResponder.endSession Responder.endSession
  cases hp : r.mAllSessions sid with
  | none =>
    refine ⟨h.next, ?_, h.verifier, h.verifiers⟩
    intro sid'
    by_cases heq : sid' = sid
    · simp [heq, hp]
    · simp [heq, h.table]
  | some p =>
    refine ⟨h.next, ?_, h.verifier, ?_⟩
    · intro sid'
      by_cases heq : sid' = sid
      · simp [heq]
      · simp [heq, h.table]
    · intro sid' p' hp'
      by_cases heq : sid' = sid
      · simp [heq] at hp'
      · simp only [ne_eq, heq, not_false_eq_true, Function.update_of_ne] at hp'
        exact h.verifiers sid' p' hp'

/-- As long as the verifiers are set, the ecalls do to the sessions what the calls of the
handshake argument do. -/
theorem Tracks.call {r : DhResponder D} {s : Responder D Msg2} (h : Tracks r s)
    (call : Ecall D Msg1 Msg2) :
    Tracks (r.call G sdk handlePkg call).2 (s.step G sdk (r.asCall G handlePkg call)) := by
  cases call with
  | msessionRequest pointers gen => exact h.sessionRequest pointers gen
  | mexchangeReport msg2 msg3 sid => exact h.exchangeReport sdk msg2 msg3 sid
  | mgenerateResponse req buffers sid => exact h.generateResponse G handlePkg req buffers sid
  | mendSession sid => exact h.endSession sid

lemma Tracks.run {r : DhResponder D} {s : Responder D Msg2} (h : Tracks r s)
    (calls : List (Ecall D Msg1 Msg2)) :
    ∃ r' calls', Runs.run (afterEcall G sdk handlePkg) (some r) calls = some r' ∧
      Tracks r' (Runs.run (Responder.step G sdk) s calls') := by
  induction calls generalizing r s with
  | nil => exact ⟨r, [], rfl, h⟩
  | cons call calls ih =>
    obtain ⟨r', calls', hrun, htracks⟩ := ih (h.call G sdk handlePkg call)
    exact ⟨r', r.asCall G handlePkg call :: calls', hrun, htracks⟩

/-- Ecalls that begin with a session request have the sessions of a run of the handshake
argument. -/
theorem ecalls_track_responder (pointers : Bool) (gen : Except StxError (Msg1 × D))
    (calls : List (Ecall D Msg1 Msg2)) :
    ∃ r calls', run (afterEcall G sdk handlePkg) none (.msessionRequest pointers gen :: calls) =
        some r ∧
      Tracks r (run (Responder.step G sdk) (Responder.start 0) calls') := by
  have hmake : Tracks (DhResponder.make true) (Responder.start 0 : Responder D Msg2) := by
    refine ⟨rfl, fun _ => rfl, rfl, ?_⟩
    intro sid p hp
    cases hp
  exact hmake.run G sdk handlePkg (.msessionRequest pointers gen :: calls)

end Ecalls

section Demo

def demoHandler : Bytes → DhSession → Option Bytes := fun data _ => some data

def demoEcall : Option (DhResponder Unit) → Ecall Unit Unit Unit →
    EcallResult Unit Unit × Option (DhResponder Unit) :=
  ecall Gcm.plain demoSdk demoHandler

/-- A session whose handshake is still open. -/
def demoOpened : Option (DhResponder Unit) :=
  (demoEcall none (.msessionRequest true (.ok ((), ())))).2

theorem refused_ecalls_leave_no_trace :
    let calls : List (Ecall Unit Unit Unit) := [.mgenerateResponse none demoBuffers 0,
      .mexchangeReport (some ()) true 7, .mexchangeReport none true 0, .mendSession 9]
    NoTrace Gcm.plain demoSdk demoHandler demoOpened calls ∧
      (demoEcall demoOpened (.mexchangeReport (some ()) true 0)).1 = .exchange (.ok ()) := by
  intro calls
  have hfails : Along (afterEcall Gcm.plain demoSdk demoHandler)
      (Fails Gcm.plain demoSdk demoHandler) demoOpened calls :=
    ⟨⟨rfl, rfl⟩, ⟨rfl, rfl⟩, ⟨rfl, rfl⟩, ⟨rfl, rfl⟩, trivial⟩
  have haccepts : demoSdk.procMsg2 () () = (.ok ((), demoKey, demoId), ()) := rfl
  refine ⟨(failed_ecalls_leave_no_trace Gcm.plain demoSdk demoHandler () haccepts demoOpened calls
    hfails).1 ?_, rfl⟩
  refine ⟨⟨_, rfl, trivial⟩, ⟨_, rfl, ?_⟩, ⟨_, rfl, trivial⟩, ⟨_, rfl, trivial⟩, trivial⟩
  intro p _ _
  rfl

/-- The first ecall ends a session that is not there. No peer completes a handshake after it,
although the verifier accepts every one. -/
theorem early_failure_stops_handshakes :
    let calls : List (Ecall Unit Unit Unit) := [.mendSession 0]
    Along (afterEcall Gcm.plain demoSdk demoHandler) (Fails Gcm.plain demoSdk demoHandler)
        none calls ∧
      demoSdk.verifyPeerEnclaveTrust demoId = .ok () ∧
      outputs demoEcall none (handshake () () ()) =
        [.session (.ok ()) (some 0), .exchange (.ok ())] ∧
      outputs demoEcall (run (afterEcall Gcm.plain demoSdk demoHandler) none calls)
          (handshake () () ()) =
        [.session (.ok ()) (some 0), .exchange (.error .errorUnexpected)] ∧
      ¬NoTrace Gcm.plain demoSdk demoHandler none calls := by
  intro calls
  refine ⟨⟨⟨rfl, rfl⟩, trivial⟩, rfl, rfl, rfl, ?_⟩
  intro h
  have hlater := h (handshake () () ())
  revert hlater
  decide

end Demo
end PrivacyComputing.Channel
