import PrivacyComputing.ChannelSession
import PrivacyComputing.RunsHistory
import Mathlib.Logic.Function.Basic

/-! `dh_session_responder`: the table of sessions of the key manager enclave, from
`session_request` over `exchange_report` to the handler, under any sequence of calls
by the host. -/
namespace PrivacyComputing.Channel
open Runs

/-- `dh_session_responder_instance`. The handshake state and the active members of `m_state`
share memory; no method reads one of them after the other was written. -/
structure ResponderInstance (D : Type*) where
  session : DhSession
  dhSession : D

/-- `sgx_dh_responder_proc_msg2` and the trust check that the enclave sets. The SDK call
returns the session key and the identity of the initiator. -/
structure ResponderSdk (D Msg2 Msg3 : Type*) where
  procMsg2 : Msg2 → D → Except StxError (Msg3 × Bytes × EnclaveIdentity) × D
  verifyPeerEnclaveTrust : EnclaveIdentity → Status

/-- What the host makes the responder do. A session number that has been handed out, a
handshake that has succeeded and an invocation of the handler are logged. -/
inductive ResponderEvent (D Msg2 : Type*)
  | issued (sessionId : UInt32)
  | exchanged (sessionId : UInt32) (msg2 : Msg2) (dhSession : D) (aek : Bytes)
      (identity : EnclaveIdentity)
  | handled (sessionId : UInt32) (aek : Bytes) (identity : EnclaveIdentity) (data : Bytes)

structure Responder (D Msg2 : Type*) where
  mAllSessions : UInt32 → Option (ResponderInstance D)
  mNextSessionId : UInt32
  history : List (ResponderEvent D Msg2)

/-- The ecalls. Pointer arguments may be null; `sgx_dh_init_session` and
`sgx_dh_responder_gen_msg1` draw the handshake state `gen`, and `out` is what the handler
will do. -/
inductive ResponderCall (D Msg2 : Type*)
  | sessionRequest (pointers : Bool) (gen : Except StxError D)
  | exchangeReport (msg2 : Option Msg2) (msg3 : Bool) (sessionId : UInt32)
  | generateResponse (req : Option SecureMessage) (buffers : ReplyBuffers) (sessionId : UInt32)
      (out : Option Bytes)
  | endSession (sessionId : UInt32)

section Table
variable {D Msg2 Msg3 : Type*} (G : Gcm) (sdk : ResponderSdk D Msg2 Msg3)

/-- An instance made by `session_request`: both functions are set and the status is that of a
new session. -/
def ResponderInstance.new (dhSession : D) : ResponderInstance D where
  session := { DhSession.new with
    mSendRequestOcallSet := true
    mVerifyPeerEnclaveTrustSet := true }
  dhSession := dhSession

/-- A failed exchange leaves the status as it is: `end_session` does nothing. -/
def ResponderInstance.exchangeReport (p : ResponderInstance D) (msg2 : Msg2) :
    Except StxError (Msg3 × Bytes × EnclaveIdentity) × ResponderInstance D :=
  match sdk.procMsg2 msg2 p.dhSession with
  | (.error e, d) => (.error e, { p with dhSession := d })
  | (.ok (msg3, aek, identity), d) =>
    match sdk.verifyPeerEnclaveTrust identity with
    | .error _ => (.error .invalidSession, { p with dhSession := d })
    | .ok () => (.ok (msg3, aek, identity), {
        session := { p.session with
          mStatus := .active
          counter := 0
          aek := aek
          mPeerIdentity := identity }
        dhSession := d })

def Responder.store (s : Responder D Msg2) (sessionId : UInt32) (p : ResponderInstance D) :
    Responder D Msg2 :=
  { s with mAllSessions := Function.update s.mAllSessions sessionId (some p) }

def Responder.log (s : Responder D Msg2) (e : ResponderEvent D Msg2) : Responder D Msg2 :=
  { s with history := e :: s.history }

/-- `std::map::insert` keeps an entry that is there. -/
def Responder.sessionRequest (s : Responder D Msg2) (pointers : Bool) (gen : Except StxError D) :
    Responder D Msg2 :=
  if !pointers then s
  else
    let sessionId := s.mNextSessionId
    let s := { s.log (.issued sessionId) with mNextSessionId := sessionId + 1 }
    match gen with
    | .error _ => s
    | .ok d => s.store sessionId ((s.mAllSessions sessionId).getD (.new d))

def Responder.exchangeReport (s : Responder D Msg2) (msg2 : Option Msg2) (msg3 : Bool)
    (sessionId : UInt32) : Responder D Msg2 :=
  match s.mAllSessions sessionId with
  | none => s
  | some p =>
    if p.session.mStatus ≠ .inProgress then s
    else
      match msg2 with
      | none => s
      | some m =>
        if !msg3 then s
        else
          match p.exchangeReport sdk m with
          | (.error _, p') => s.store sessionId p'
          | (.ok (_, aek, identity), p') =>
            (s.store sessionId p').log (.exchanged sessionId m p.dhSession aek identity)

def Responder.generateResponse (s : Responder D Msg2) (req : Option SecureMessage)
    (buffers : ReplyBuffers) (sessionId : UInt32) (out : Option Bytes) : Responder D Msg2 :=
  match s.mAllSessions sessionId with
  | none => s
  | some p =>
    let r := p.session.generateResponse G req (fun _ _ => out) buffers
    let s := s.store sessionId { p with session := r.2 }
    match r.1.handled with
    | none => s
    | some data => s.log (.handled sessionId p.session.aek p.session.mPeerIdentity data)

def Responder.endSession (s : Responder D Msg2) (sessionId : UInt32) : Responder D Msg2 :=
  { s with mAllSessions := Function.update s.mAllSessions sessionId none }

def Responder.step (s : Responder D Msg2) : ResponderCall D Msg2 → Responder D Msg2
  | .sessionRequest pointers gen => s.sessionRequest pointers gen
  | .exchangeReport msg2 msg3 sessionId => s.exchangeReport sdk msg2 msg3 sessionId
  | .generateResponse req buffers sessionId out => s.generateResponse G req buffers sessionId out
  | .endSession sessionId => s.endSession sessionId

/-- A successful exchange comes from a handshake message that the SDK accepted and an identity
that the trust check accepted; the handler runs under key and identity of such an
exchange of its session. -/
def Authorised (older : List (ResponderEvent D Msg2)) : ResponderEvent D Msg2 → Prop
  | .issued _ => True
  | .exchanged _ msg2 d aek identity =>
      (∃ msg3 d', sdk.procMsg2 msg2 d = (.ok (msg3, aek, identity), d')) ∧
      sdk.verifyPeerEnclaveTrust identity = .ok ()
  | .handled sessionId aek identity _ =>
      ∃ msg2 d, .exchanged sessionId msg2 d aek identity ∈ older

/-- Session numbers for which an exchange has succeeded. -/
def ResponderEvent.exchangedId : ResponderEvent D Msg2 → Option UInt32
  | .exchanged sessionId .. => some sessionId
  | _ => none

/-- After `n` session requests, counted from the number `first`. -/
structure AccessInv (first : UInt32) (n : ℕ) (s : Responder D Msg2) : Prop where
  next : s.mNextSessionId = first + UInt32.ofNat n
  issued : ∀ sid, .issued sid ∈ s.history → ∃ i < n, sid = first + UInt32.ofNat i
  table : ∀ sid p, s.mAllSessions sid = some p → .issued sid ∈ s.history
  known : ∀ sid, sid ∈ s.history.filterMap ResponderEvent.exchangedId → .issued sid ∈ s.history
  active : ∀ sid p, s.mAllSessions sid = some p → p.session.mStatus = .active →
    ∃ msg2 d, .exchanged sid msg2 d p.session.aek p.session.mPeerIdentity ∈ s.history
  progress : ∀ sid p, s.mAllSessions sid = some p → p.session.mStatus = .inProgress →
    sid ∉ s.history.filterMap ResponderEvent.exchangedId
  once : (s.history.filterMap ResponderEvent.exchangedId).Nodup
  law : Justified (Authorised sdk) s.history

lemma store_cases {s : Responder D Msg2} {sid sid' : UInt32} {p p' : ResponderInstance D}
    (h : (s.store sid p).mAllSessions sid' = some p') :
    sid' = sid ∧ p' = p ∨ s.mAllSessions sid' = some p' := by
  by_cases heq : sid' = sid
  · subst heq
    simp only [Responder.store, Function.update_self, Option.some.injEq] at h
    exact .inl ⟨rfl, h.symm⟩
  · simp only [Responder.store, Function.update_of_ne heq] at h
    exact .inr h

/-- A session may be replaced by one with the same status, key and identity. -/
theorem accessInv_store {first : UInt32} {n : ℕ} {s : Responder D Msg2} {sid : UInt32}
    {p p' : ResponderInstance D} (h : AccessInv sdk first n s)
    (hp : s.mAllSessions sid = some p) (hstatus : p'.session.mStatus = p.session.mStatus)
    (haek : p'.session.aek = p.session.aek)
    (hid : p'.session.mPeerIdentity = p.session.mPeerIdentity) :
    AccessInv sdk first n (s.store sid p') := by
  refine ⟨h.next, h.issued, ?_, h.known, ?_, ?_, h.once, h.law⟩
  · intro sid' q hq
    obtain ⟨rfl, rfl⟩ | hq := store_cases hq
    · exact h.table _ p hp
    · exact h.table sid' q hq
  · intro sid' q hq hactive
    obtain ⟨rfl, rfl⟩ | hq := store_cases hq
    · rw [haek, hid]
      exact h.active _ p hp (hstatus ▸ hactive)
    · exact h.active sid' q hq hactive
  · intro sid' q hq hprogress
    obtain ⟨rfl, rfl⟩ | hq := store_cases hq
    · exact h.progress _ p hp (hstatus ▸ hprogress)
    · exact h.progress sid' q hq hprogress

theorem accessInv_handled {first : UInt32} {n : ℕ} {s : Responder D Msg2} {sid : UInt32}
    {p : ResponderInstance D} (h : AccessInv sdk first n s) (hp : s.mAllSessions sid = some p)
    (hactive : p.session.mStatus = .active) (data : Bytes) :
    AccessInv sdk first n (s.log (.handled sid p.session.aek p.session.mPeerIdentity data)) := by
  refine ⟨h.next, ?_, ?_, ?_, ?_, h.progress, h.once, h.active sid p hp hactive, h.law⟩
  · intro sid' hi
    obtain heq | hi := List.mem_cons.mp hi
    · cases heq
    · exact h.issued sid' hi
  · intro sid' q hq
    exact List.mem_cons_of_mem _ (h.table sid' q hq)
  · intro sid' hk
    exact List.mem_cons_of_mem _ (h.known sid' hk)
  · intro sid' q hq ha
    obtain ⟨msg2, d, he⟩ := h.active sid' q hq ha
    exact ⟨msg2, d, List.mem_cons_of_mem _ he⟩

theorem accessInv_exchanged {first : UInt32} {n : ℕ} {s : Responder D Msg2} {sid : UInt32}
    {p p' : ResponderInstance D} {msg2 : Msg2} {msg3 : Msg3} {aek : Bytes}
    {identity : EnclaveIdentity} {d : D} (h : AccessInv sdk first n s)
    (hp : s.mAllSessions sid = some p) (hprogress : p.session.mStatus = .inProgress)
    (hproc : sdk.procMsg2 msg2 p.dhSession = (.ok (msg3, aek, identity), d))
    (hverify : sdk.verifyPeerEnclaveTrust identity = .ok ())
    (hstatus : p'.session.mStatus = .active) (haek : p'.session.aek = aek)
    (hid : p'.session.mPeerIdentity = identity) :
    AccessInv sdk first n
      ((s.store sid p').log (.exchanged sid msg2 p.dhSession aek identity)) := by
  have hnew := h.progress sid p hp hprogress
  refine ⟨h.next, ?_, ?_, ?_, ?_, ?_, ?_, ⟨⟨msg3, d, hproc⟩, hverify⟩, h.law⟩
  · intro sid' hi
    obtain heq | hi := List.mem_cons.mp hi
    · cases heq
    · exact h.issued sid' hi
  · intro sid' q hq
    obtain ⟨rfl, rfl⟩ | hq := store_cases hq
    · exact List.mem_cons_of_mem _ (h.table _ p hp)
    · exact List.mem_cons_of_mem _ (h.table sid' q hq)
  · intro sid' hk
    obtain rfl | hk := List.mem_cons.mp hk
    · exact List.mem_cons_of_mem _ (h.table _ p hp)
    · exact List.mem_cons_of_mem _ (h.known sid' hk)
  · intro sid' q hq ha
    obtain ⟨rfl, rfl⟩ | hq := store_cases hq
    · rw [haek, hid]
      exact ⟨msg2, p.dhSession, List.mem_cons_self⟩
    · obtain ⟨msg2', d', he⟩ := h.active sid' q hq ha
      exact ⟨msg2', d', List.mem_cons_of_mem _ he⟩
  · intro sid' q hq hpr hmem
    obtain ⟨rfl, rfl⟩ | hq' := store_cases hq
    · rw [hstatus] at hpr
      cases hpr
    · obtain rfl | hmem := List.mem_cons.mp hmem
      · have : (s.store sid' p').mAllSessions sid' = some p' := by simp [Responder.store]
        have hqp : some q = some p' := hq.symm.trans this
        cases hqp
        rw [hstatus] at hpr
        cases hpr
      · exact h.progress sid' q hq' hpr hmem
  · exact List.nodup_cons.mpr ⟨hnew, h.once⟩

lemma issued_lt {first : UInt32} {i n : ℕ} (hi : i < n) (hn : n < 2 ^ 32) :
    first + UInt32.ofNat i ≠ first + UInt32.ofNat n := by
  intro heq
  have hnat := congrArg UInt32.toNat heq
  rw [UInt32.toNat_add, UInt32.toNat_add, UInt32.toNat_ofNat', UInt32.toNat_ofNat'] at hnat
  have hfirst := first.toNat_lt
  omega

theorem accessInv_issue {first : UInt32} {n : ℕ} {s : Responder D Msg2}
    (h : AccessInv sdk first n s) :
    AccessInv sdk first (n + 1)
      { s.log (.issued s.mNextSessionId) with mNextSessionId := s.mNextSessionId + 1 } := by
  refine ⟨?_, ?_, ?_, ?_, ?_, h.progress, h.once, trivial, h.law⟩
  · rw [h.next, UInt32.ofNat_add, UInt32.add_assoc]
    rfl
  · intro sid hi
    obtain heq | hi := List.mem_cons.mp hi
    · cases heq
      exact ⟨n, Nat.lt_succ_self n, h.next⟩
    · obtain ⟨i, hlt, heq⟩ := h.issued sid hi
      exact ⟨i, Nat.lt_succ_of_lt hlt, heq⟩
  · intro sid q hq
    exact List.mem_cons_of_mem _ (h.table sid q hq)
  · intro sid hk
    exact List.mem_cons_of_mem _ (h.known sid hk)
  · intro sid q hq ha
    obtain ⟨msg2, d, he⟩ := h.active sid q hq ha
    exact ⟨msg2, d, List.mem_cons_of_mem _ he⟩

/-- The number that is handed out next belongs to no session, past or present. -/
lemma next_unused {first : UInt32} {n : ℕ} {s : Responder D Msg2}
    (h : AccessInv sdk first n s) (hn : n < 2 ^ 32) : .issued s.mNextSessionId ∉ s.history := by
  intro hi
  obtain ⟨i, hlt, heq⟩ := h.issued _ hi
  rw [h.next] at heq
  exact issued_lt hlt hn heq.symm

theorem accessInv_sessionRequest {first : UInt32} {n : ℕ} {s : Responder D Msg2}
    (h : AccessInv sdk first n s) (hn : n < 2 ^ 32) (pointers : Bool) (gen : Except StxError D) :
    ∃ m ≤ n + 1, AccessInv sdk first m (s.sessionRequest pointers gen) := by
  unfold Responder.sessionRequest
  split_ifs
  · exact ⟨n, Nat.le_succ n, h⟩
  · refine ⟨n + 1, le_rfl, ?_⟩
    have hi := accessInv_issue sdk h
    have hunused := next_unused sdk h hn
    cases gen with
    | error e => exact hi
    | ok d =>
      have hnone : s.mAllSessions s.mNextSessionId = none := by
        cases hp : s.mAllSessions s.mNextSessionId with
        | none => rfl
        | some p => exact absurd (h.table _ p hp) hunused
      refine ⟨hi.next, hi.issued, ?_, hi.known, ?_, ?_, hi.once, hi.law⟩
      · intro sid q hq
        obtain ⟨rfl, -⟩ | hq := store_cases hq
        · exact List.mem_cons_self
        · exact hi.table sid q hq
      · intro sid q hq ha
        obtain ⟨-, rfl⟩ | hq := store_cases hq
        · simp only [Responder.log, hnone, Option.getD_none] at ha
          cases ha
        · exact hi.active sid q hq ha
      · intro sid q hq hp hmem
        obtain ⟨rfl, -⟩ | hq := store_cases hq
        · exact hunused (h.known _ hmem)
        · exact hi.progress sid q hq hp hmem

theorem accessInv_exchangeReport {first : UInt32} {n : ℕ} {s : Responder D Msg2}
    (h : AccessInv sdk first n s) (msg2 : Option Msg2) (msg3 : Bool) (sid : UInt32) :
    AccessInv sdk first n (s.exchangeReport sdk msg2 msg3 sid) := by
  unfold Responder.exchangeReport
  cases hp : s.mAllSessions sid with
  | none => exact h
  | some p =>
    cases msg2 with
    | none =>
      dsimp only
      split_ifs <;> exact h
    | some m =>
      dsimp only
      split_ifs with hst hnull
      · exact h
      · exact h
      · have hprogress : p.session.mStatus = .inProgress := not_not.mp hst
        unfold ResponderInstance.exchangeReport
        cases hproc : sdk.procMsg2 m p.dhSession with
        | mk result d =>
          cases result with
          | error e => exact accessInv_store sdk h hp rfl rfl rfl
          | ok r =>
            obtain ⟨msg3', aek, identity⟩ := r
            cases hverify : sdk.verifyPeerEnclaveTrust identity with
            | error e =>
              simp only [hverify]
              exact accessInv_store sdk h hp rfl rfl rfl
            | ok u =>
              simp only [hverify]
              exact accessInv_exchanged sdk h hp hprogress hproc hverify rfl rfl rfl

theorem accessInv_generateResponse {first : UInt32} {n : ℕ} {s : Responder D Msg2}
    (h : AccessInv sdk first n s) (req : Option SecureMessage) (buffers : ReplyBuffers)
    (sid : UInt32) (out : Option Bytes) :
    AccessInv sdk first n (s.generateResponse G req buffers sid out) := by
  unfold Responder.generateResponse
  cases hp : s.mAllSessions sid with
  | none => exact h
  | some p =>
    have hspec := generateResponse_spec G p.session req (fun _ _ => out) buffers
    dsimp only
    generalize p.session.generateResponse G req (fun _ _ => out) buffers = r at hspec ⊢
    obtain ⟨reply, session⟩ := r
    obtain ⟨hstatus, haek, hid⟩ := hspec.keeps
    have hstore : AccessInv sdk first n (s.store sid { p with session := session }) :=
      accessInv_store sdk h hp hstatus haek hid
    cases hh : reply.handled with
    | none => exact hstore
    | some data =>
      have hstored : (s.store sid { p with session := session }).mAllSessions sid =
          some { p with session := session } := by simp [Responder.store]
      have hactive : session.mStatus = .active := hstatus.trans (hspec.active hh)
      dsimp only
      rw [← haek, ← hid]
      exact accessInv_handled sdk hstore hstored hactive data

theorem accessInv_endSession {first : UInt32} {n : ℕ} {s : Responder D Msg2}
    (h : AccessInv sdk first n s) (sid : UInt32) :
    AccessInv sdk first n (s.endSession sid) := by
  have hold (sid' : UInt32) (q : ResponderInstance D)
      (hq : (s.endSession sid).mAllSessions sid' = some q) : s.mAllSessions sid' = some q := by
    by_cases heq : sid' = sid
    · subst heq
      simp [Responder.endSession] at hq
    · simpa [Responder.endSession, Function.update_of_ne heq] using hq
  exact ⟨h.next, h.issued, fun sid' q hq => h.table sid' q (hold sid' q hq), h.known,
    fun sid' q hq => h.active sid' q (hold sid' q hq),
    fun sid' q hq => h.progress sid' q (hold sid' q hq), h.once, h.law⟩

def ResponderCall.isSessionRequest : ResponderCall D Msg2 → Bool
  | .sessionRequest .. => true
  | _ => false

theorem accessInv_run {first : UInt32} {n : ℕ} {s : Responder D Msg2}
    (h : AccessInv sdk first n s) (calls : List (ResponderCall D Msg2))
    (hn : n + calls.countP ResponderCall.isSessionRequest < 2 ^ 32) :
    ∃ m, AccessInv sdk first m (run (Responder.step G sdk) s calls) := by
  induction calls generalizing s n with
  | nil => exact ⟨n, h⟩
  | cons call calls ih =>
    rw [List.countP_cons] at hn
    cases call with
    | sessionRequest pointers gen =>
      simp only [ResponderCall.isSessionRequest, if_true] at hn
      obtain ⟨m, hm, h'⟩ := accessInv_sessionRequest sdk h (by omega) pointers gen
      exact ih h' (by omega)
    | exchangeReport msg2 msg3 sid => exact ih (accessInv_exchangeReport sdk h msg2 msg3 sid) hn
    | generateResponse req buffers sid out =>
      exact ih (accessInv_generateResponse G sdk h req buffers sid out) hn
    | endSession sid => exact ih (accessInv_endSession sdk h sid) hn

def Responder.start (first : UInt32) : Responder D Msg2 where
  mAllSessions _ := none
  mNextSessionId := first
  history := []

/-- Who reaches the handler. -/
structure AccessControl (s : Responder D Msg2) : Prop where
  handled : ∀ newer older sid aek identity data,
    s.history = newer ++ .handled sid aek identity data :: older →
    ∃ msg2 d msg3 d', .exchanged sid msg2 d aek identity ∈ older ∧
      sdk.procMsg2 msg2 d = (.ok (msg3, aek, identity), d') ∧
      sdk.verifyPeerEnclaveTrust identity = .ok ()
  unchanged : ∀ sid msg2 d aek identity msg2' d' aek' identity',
    .exchanged sid msg2 d aek identity ∈ s.history →
    .exchanged sid msg2' d' aek' identity' ∈ s.history →
    aek' = aek ∧ identity' = identity
  kept : ∀ sid p, s.mAllSessions sid = some p → p.session.mStatus = .active →
    ∃ msg2 d, .exchanged sid msg2 d p.session.aek p.session.mPeerIdentity ∈ s.history

theorem accessControl_of_inv {first : UInt32} {n : ℕ} {s : Responder D Msg2}
    (h : AccessInv sdk first n s) : AccessControl sdk s := by
  refine ⟨?_, ?_, h.active⟩
  · intro newer older sid aek identity data hsplit
    have hlaw := h.law
    rw [hsplit] at hlaw
    obtain ⟨msg2, d, hmem⟩ := hlaw.at_event
    obtain ⟨_, ⟨msg3, d', hproc⟩, hverify⟩ := (Justified.older hlaw).2.of_mem hmem
    exact ⟨msg2, d, msg3, d', hmem, hproc, hverify⟩
  · intro sid msg2 d aek identity msg2' d' aek' identity' he he'
    have heq := eq_of_nodup_filterMap h.once he he' rfl rfl
    cases heq
    exact ⟨rfl, rfl⟩

/-- The handler runs only in sessions whose handshake succeeded with a trusted peer, under
the key and the identity of that handshake. -/
theorem handler_runs_for_trusted_peers (first : UInt32) (calls : List (ResponderCall D Msg2))
    (hfew : calls.countP ResponderCall.isSessionRequest < 2 ^ 32) :
    AccessControl sdk (run (Responder.step G sdk) (Responder.start first) calls) := by
  have hstart : AccessInv sdk first 0 (Responder.start first : Responder D Msg2) := by
    refine ⟨?_, ?_, ?_, ?_, ?_, ?_, List.nodup_nil, trivial⟩
    · exact (UInt32.add_zero first).symm
    · intro sid hi
      cases hi
    · intro sid p hp
      cases hp
    · intro sid hk
      cases hk
    · intro sid p hp
      cases hp
    · intro sid p hp
      cases hp
  obtain ⟨m, hm⟩ := accessInv_run G sdk hstart calls (by omega)
  exact accessControl_of_inv sdk hm

end Table

/-- A handshake that always ends with the same peer. -/
def demoSdk : ResponderSdk Unit Unit Unit where
  procMsg2 _ _ := (.ok ((), demoKey, demoId), ())
  verifyPeerEnclaveTrust _ := .ok ()

theorem handler_runs_after_exchange :
    let calls : List (ResponderCall Unit Unit) := [.sessionRequest true (.ok ()),
      .generateResponse (some (demoMessage 0 1)) demoBuffers 0 (some [2]),
      .exchangeReport (some ()) true 0,
      .generateResponse (some (demoMessage 0 1)) demoBuffers 0 (some [2])]
    (run (Responder.step Gcm.plain demoSdk) (Responder.start 0) calls).history.head? =
        some (.handled 0 demoKey demoId [1]) ∧
      AccessControl demoSdk (run (Responder.step Gcm.plain demoSdk) (Responder.start 0) calls) :=
  ⟨rfl, handler_runs_for_trusted_peers Gcm.plain demoSdk 0 _ (by decide)⟩

end PrivacyComputing.Channel
