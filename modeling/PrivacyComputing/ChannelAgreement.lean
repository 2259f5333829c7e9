import PrivacyComputing.ChannelNonce

/-! Requests and responses of a channel. The initiator compares the nonce of a response
with its counter, the responder looks at no nonce at all, so agreement depends on the
host delivering every request once, while it is pending. -/
namespace PrivacyComputing.Channel
open Runs LittleEndian

def Event.requestMessage : Event → Option SecureMessage
  | .requested m _ => some m
  | _ => none

def Event.handledMessage : Event → Option SecureMessage
  | .handled m _ _ => some m
  | _ => none

/-- The response `data` is what the handler returned on the last request. -/
def AnswersLast (older : List Event) (data : Bytes) : Prop :=
  ∃ newer m p before, older = newer ++ .requested m p :: before ∧
    (∀ e ∈ newer, e.requestMessage = none) ∧ .handled m p (some data) ∈ newer

/-- Every accepted response answers the request it is accepted for, and no request is
handled more often than it was made. -/
structure Agreement (history : List Event) : Prop where
  answers : Justified (fun older e => ∀ data, e = .accepted data → AnswersLast older data) history
  once : ∀ m, (history.filterMap Event.handledMessage).count m ≤
    (history.filterMap Event.requestMessage).count m

section Conditions
variable (G : Gcm)

/-- Unforgeability along a run: what decrypts has been encrypted before by one of the ends. -/
def Authentic (s : Pair) : Move → Prop
  | .ocallReturns (.ok resp) => ∀ data ∈ (s.initiator.openMessage G resp).toOption,
      (resp.reserved, data) ∈ s.history.filterMap Event.encryption
  | .serve (some req) _ _ => ∀ data ∈ (s.responder.openMessage G req).toOption,
      (req.reserved, data) ∈ s.history.filterMap Event.encryption
  | _ => True

instance (s : Pair) (move : Move) : Decidable (Authentic G s move) := by
  unfold Authentic
  split <;> infer_instance

/-- A request is sent only when the counters of the two ends agree and can be advanced. The
responder opens a message only if it is the pending request and nothing has happened
since that request was sent. -/
def InOrder (s : Pair) : Move → Prop
  | .request _ => s.responder.counter = s.initiator.counter ∧ s.initiator.counter + 1 ≠ 0
  | .ocallReturns _ => True
  | .serve req buffers _ => buffers.maxPayloadSize < 2 ^ 32 ∧
      ∀ m ∈ req, (s.responder.openMessage G m).toOption.isSome →
        s.pending = some m ∧ s.history.head?.bind Event.requestMessage = some m

instance (s : Pair) : ∀ move, Decidable (InOrder G s move)
  | .request _ => inferInstanceAs (Decidable (_ ∧ _))
  | .ocallReturns _ => .isTrue trivial
  | .serve _ _ _ => inferInstanceAs (Decidable (_ < _ ∧ ∀ m ∈ _, _))

end Conditions

section Invariant
variable (G : Gcm)

/-- The initiator waits for the response to `m`. A response that is on the way carries an
older nonce or the handler's result on `m`. -/
structure Waiting (s : Pair) (m : SecureMessage) (newer : List Event) (p : Bytes)
    (before : List Event) : Prop where
  split : s.history = newer ++ .requested m p :: before
  quiet : ∀ e ∈ newer, e.requestMessage = none
  opens : s.responder.openMessage G m = .ok p
  nowrap : s.initiator.counter + 1 ≠ 0
  answers : ∀ r q, .responded r q ∈ s.history →
    (∃ j : UInt32, r.reserved = nonce j ∧ j.toNat ≤ s.initiator.counter.toNat) ∨
      .handled m p (some q) ∈ newer
  untouched : newer = [] → s.responder.counter = s.initiator.counter ∧
    (s.history.filterMap Event.handledMessage).count m <
      (s.history.filterMap Event.requestMessage).count m

structure AgreeInv (s : Pair) : Prop where
  key : s.responder.aek = s.initiator.aek
  requests : ∀ m p, .requested m p ∈ s.history →
    ∃ j : UInt32, m.reserved = nonce j ∧ j.toNat ≤ s.initiator.counter.toNat
  responses : ∀ m p, .responded m p ∈ s.history →
    ∃ j : UInt32, m.reserved = nonce j ∧ j.toNat ≤ s.responder.counter.toNat
  law : Agreement s.history
  waiting : ∀ m, s.pending = some m → ∃ newer p before, Waiting G s m newer p before

theorem agreeInv_requested {s : Pair} (h : AgreeInv G s) {inpBuff : Bytes} {m : SecureMessage}
    (hcond : InOrder G s (.request inpBuff))
    (hseal : s.initiator.sealMessage G inpBuff = .ok m) :
    AgreeInv G { s with
      pending := some m
      history := .requested m (cut inpBuff) :: s.history } := by
  obtain ⟨hsame, hnowrap⟩ := hcond
  have hopen : s.responder.openMessage G m = .ok (cut inpBuff) := open_sealMessage G h.key hseal
  refine ⟨h.key, ?_, ?_, ⟨⟨?_, h.law.answers⟩, ?_⟩, ?_⟩
  · intro m' p hm
    obtain heq | hm := List.mem_cons.mp hm
    · cases heq
      exact ⟨_, sealMessage_reserved G hseal, le_rfl⟩
    · exact h.requests m' p hm
  · intro m' p hm
    obtain heq | hm := List.mem_cons.mp hm
    · cases heq
    · exact h.responses m' p hm
  · intro data heq
    cases heq
  · intro m'
    have := h.law.once m'
    simp only [List.filterMap_cons, Event.handledMessage, Event.requestMessage, List.count_cons]
    omega
  · intro m' hm'
    cases hm'
    refine ⟨[], cut inpBuff, s.history, rfl, by simp, hopen, hnowrap, ?_, fun _ => ⟨hsame, ?_⟩⟩
    · intro r q hr
      obtain heq | hr := List.mem_cons.mp hr
      · cases heq
      · obtain ⟨j, hj, hle⟩ := h.responses r q hr
        rw [hsame] at hle
        exact .inl ⟨j, hj, hle⟩
    · have := h.law.once m
      simp only [List.filterMap_cons, Event.handledMessage, Event.requestMessage,
        List.count_cons_self]
      omega

/-- A response with the next nonce can only be the handler's result on the pending request. -/
theorem accepted_answers {s : Pair} (h : AgreeInv G s) {m resp : SecureMessage} {data : Bytes}
    (hpending : s.pending = some m) (hauth : Authentic G s (.ocallReturns (.ok resp)))
    (opened : s.initiator.openMessage G resp = .ok data)
    (fresh : decode (resp.reserved.take 4) = (s.initiator.counter + 1).toNat) :
    AnswersLast s.history data := by
  obtain ⟨newer, p, before, hw⟩ := h.waiting m hpending
  have hsucc := toNat_succ hw.nowrap
  have hmem := hauth data (by rw [opened]; rfl)
  obtain ⟨e, he, henc⟩ := List.mem_filterMap.mp hmem
  have hstale (j : UInt32) (hj : resp.reserved = nonce j)
      (hle : j.toNat ≤ s.initiator.counter.toNat) : False := by
    rw [hj, decode_nonce] at fresh
    omega
  cases e with
  | requested m' p' =>
    obtain ⟨j, hj, hle⟩ := h.requests m' p' he
    obtain ⟨hiv, -⟩ := Prod.mk.inj (Option.some.inj henc)
    exact absurd hle (fun hle => hstale j (hiv ▸ hj) hle)
  | responded r q =>
    obtain ⟨hiv, rfl⟩ := Prod.mk.inj (Option.some.inj henc)
    obtain ⟨j, hj, hle⟩ | hhandled := hw.answers r q he
    · exact absurd hle (fun hle => hstale j (hiv ▸ hj) hle)
    · exact ⟨newer, m, p, before, hw.split, hw.quiet, hhandled⟩
  | handled m' p' out => cases henc
  | accepted p' => cases henc

theorem agreeInv_accepted {s : Pair} (h : AgreeInv G s) {m resp : SecureMessage} {data : Bytes}
    (hpending : s.pending = some m) (hauth : Authentic G s (.ocallReturns (.ok resp)))
    (opened : s.initiator.openMessage G resp = .ok data)
    (fresh : decode (resp.reserved.take 4) = (s.initiator.counter + 1).toNat) :
    AgreeInv G { s with
      initiator := { s.initiator with counter := s.initiator.counter + 1 }
      pending := none
      history := .accepted data :: s.history } := by
  obtain ⟨newer, p, before, hw⟩ := h.waiting m hpending
  have hsucc := toNat_succ hw.nowrap
  have hlast := accepted_answers G h hpending hauth opened fresh
  refine ⟨h.key, ?_, ?_, ⟨⟨?_, h.law.answers⟩, ?_⟩, ?_⟩
  · intro m' p' hm
    obtain heq | hm := List.mem_cons.mp hm
    · cases heq
    · obtain ⟨j, hj, hle⟩ := h.requests m' p' hm
      refine ⟨j, hj, ?_⟩
      dsimp only
      omega
  · intro m' p' hm
    obtain heq | hm := List.mem_cons.mp hm
    · cases heq
    · exact h.responses m' p' hm
  · intro data' heq
    cases heq
    exact hlast
  · exact h.law.once
  · intro m' hm'
    cases hm'

/-- The message that is served is the pending request, and nothing has happened since. -/
theorem served_is_pending {s : Pair} (h : AgreeInv G s) {m : SecureMessage}
    {buffers : ReplyBuffers} {out : Option Bytes} {data : Bytes}
    (hcond : InOrder G s (.serve (some m) buffers out))
    (opened : s.responder.openMessage G m = .ok data) :
    s.pending = some m ∧ ∃ before, Waiting G s m [] data before := by
  obtain ⟨hpending, hhead⟩ := hcond.2 m rfl (by rw [opened]; rfl)
  obtain ⟨newer, p, before, hw⟩ := h.waiting m hpending
  have hp : p = data := by
    have := hw.opens
    rw [opened] at this
    exact (Except.ok.inj this).symm
  have hnewer : newer = [] := by
    cases newer with
    | nil => rfl
    | cons e newer =>
      rw [hw.split] at hhead
      have he := hw.quiet e (by simp)
      simp [he] at hhead
  subst hp hnewer
  exact ⟨hpending, before, hw⟩

/-- One invocation of the handler on the pending request. -/
lemma once_handled {s : Pair} (h : AgreeInv G s) {m : SecureMessage} {data : Bytes}
    {out : Option Bytes} {before : List Event} (hw : Waiting G s m [] data before)
    (m' : SecureMessage) :
    ((.handled m data out :: s.history).filterMap Event.handledMessage).count m' ≤
      ((.handled m data out :: s.history).filterMap Event.requestMessage).count m' := by
  have hstrict := (hw.untouched rfl).2
  have hle := h.law.once m'
  simp only [List.filterMap_cons, Event.handledMessage, Event.requestMessage, List.count_cons]
  by_cases heq : m = m'
  · subst heq
    simp only [beq_self_eq_true, if_true]
    omega
  · simp only [beq_iff_eq, heq, if_false]
    omega

lemma older_answer {s : Pair} {m : SecureMessage} {data : Bytes} {before : List Event}
    (hw : Waiting G s m [] data before) {r : SecureMessage} {q : Bytes}
    (hr : .responded r q ∈ s.history) :
    ∃ j : UInt32, r.reserved = nonce j ∧ j.toNat ≤ s.initiator.counter.toNat := by
  obtain hold | hnew := hw.answers r q hr
  · exact hold
  · cases hnew

theorem agreeInv_handled {s : Pair} (h : AgreeInv G s) {m : SecureMessage}
    {buffers : ReplyBuffers} {out : Option Bytes} {data : Bytes} {counter : UInt32}
    (hcond : InOrder G s (.serve (some m) buffers out))
    (opened : s.responder.openMessage G m = .ok data)
    (hcounter : counter = s.responder.counter ∨ counter = s.responder.counter + 1) :
    AgreeInv G { s with
      responder := { s.responder with counter := counter }
      history := .handled m data out :: s.history } := by
  obtain ⟨hpending, before, hw⟩ := served_is_pending G h hcond opened
  obtain ⟨hsame, hstrict⟩ := hw.untouched rfl
  have hsucc := toNat_succ hw.nowrap
  have hmono : s.responder.counter.toNat ≤ counter.toNat := by
    obtain rfl | rfl := hcounter
    · exact le_rfl
    · rw [hsame]
      omega
  refine ⟨h.key, ?_, ?_, ⟨⟨?_, h.law.answers⟩, once_handled G h hw⟩, ?_⟩
  · intro m' p hm
    obtain heq | hm := List.mem_cons.mp hm
    · cases heq
    · exact h.requests m' p hm
  · intro m' p hm
    obtain heq | hm := List.mem_cons.mp hm
    · cases heq
    · obtain ⟨j, hj, hle⟩ := h.responses m' p hm
      exact ⟨j, hj, hle.trans hmono⟩
  · intro data' heq
    cases heq
  · intro m' hm'
    have hm : m' = m := Option.some.inj (hm'.symm.trans hpending)
    subst hm
    refine ⟨[.handled m' data out], data, before, ?_, ?_, opened, hw.nowrap, ?_, by simp⟩
    · rw [hw.split]
      rfl
    · simp [Event.requestMessage]
    · intro r q hr
      obtain heq | hr := List.mem_cons.mp hr
      · cases heq
      · exact .inl (older_answer G hw hr)

theorem agreeInv_answered {s : Pair} (h : AgreeInv G s) {m r : SecureMessage}
    {buffers : ReplyBuffers} {respStr data : Bytes}
    (hcond : InOrder G s (.serve (some m) buffers (some respStr)))
    (opened : s.responder.openMessage G m = .ok data)
    (fits : respStr.length ≤ buffers.maxPayloadSize)
    (hseal : { s.responder with counter := s.responder.counter + 1 }.sealMessage G respStr =
      .ok r) :
    AgreeInv G { s with
      responder := { s.responder with counter := s.responder.counter + 1 }
      history := .responded r (cut respStr) :: .handled m data (some respStr) :: s.history } := by
  obtain ⟨hpending, before, hw⟩ := served_is_pending G h hcond opened
  have hcut : cut respStr = respStr := cut_of_lt (lt_of_le_of_lt fits hcond.1)
  have hi := agreeInv_handled G h hcond opened (.inr rfl)
  refine ⟨hi.key, ?_, ?_, ⟨⟨?_, hi.law.answers⟩, ?_⟩, ?_⟩
  · intro m' p hm
    obtain heq | hm := List.mem_cons.mp hm
    · cases heq
    · exact hi.requests m' p hm
  · intro m' p hm
    obtain heq | hm := List.mem_cons.mp hm
    · cases heq
      exact ⟨_, sealMessage_reserved G hseal, le_rfl⟩
    · exact hi.responses m' p hm
  · intro data' heq
    cases heq
  · exact hi.law.once
  · intro m' hm'
    have hm : m' = m := Option.some.inj (hm'.symm.trans hpending)
    subst hm
    refine ⟨[.responded r (cut respStr), .handled m' data (some respStr)], data, before, ?_, ?_,
      opened, hw.nowrap, ?_, by simp⟩
    · rw [hw.split]
      rfl
    · simp [Event.requestMessage]
    · intro r' q hr
      obtain heq | hr := List.mem_cons.mp hr
      · cases heq
        rw [hcut]
        exact .inr (by simp)
      · obtain heq | hr := List.mem_cons.mp hr
        · cases heq
        · exact .inl (older_answer G hw hr)

theorem agreeInv_step (s : Pair) (move : Move) (h : AgreeInv G s)
    (hcond : InOrder G s move ∧ Authentic G s move) : AgreeInv G (s.step G move) := by
  have hstep := step_spec G s move
  generalize s.step G move = t at hstep ⊢
  cases hstep with
  | idle => exact h
  | requested inpBuff m free hseal => exact agreeInv_requested G h hcond.1 hseal
  | dropped answer =>
    refine ⟨h.key, h.requests, h.responses, h.law, ?_⟩
    intro m hm
    cases hm
  | accepted m resp data waiting opened fresh =>
    exact agreeInv_accepted G h waiting hcond.2 opened fresh
  | handled m buffers out data counter opened hcounter =>
    exact agreeInv_handled G h hcond.1 opened hcounter
  | answered m buffers respStr data r opened fits hseal =>
    exact agreeInv_answered G h hcond.1 opened fits hseal

/-- With an unforgeable cipher and a host that delivers every request at most once and in
order, requests and responses agree one to one. -/
theorem agreement_in_order (aek : Bytes) (sessionId : UInt32)
    (responderId initiatorId : EnclaveIdentity) (moves : List Move)
    (hauth : Along (Pair.step G) (Authentic G)
      (Pair.start aek sessionId responderId initiatorId) moves)
    (hcond : Along (Pair.step G) (InOrder G)
      (Pair.start aek sessionId responderId initiatorId) moves) :
    Agreement (run (Pair.step G) (Pair.start aek sessionId responderId initiatorId)
      moves).history := by
  have hstart : AgreeInv G (Pair.start aek sessionId responderId initiatorId) := by
    refine ⟨rfl, ?_, ?_, ⟨trivial, fun _ => le_rfl⟩, ?_⟩
    · intro m p hm
      cases hm
    · intro m p hm
      cases hm
    · intro m hm
      cases hm
  exact (run_invariant (agreeInv_step G) hstart (hcond.and hauth)).law

end Invariant

theorem agreement_two_requests :
    let moves := [Move.request [1], .serve (some (demoMessage 0 1)) demoBuffers (some [2]),
      .ocallReturns (.ok (demoMessage 1 2)), .request [3],
      .serve (some (demoMessage 1 3)) demoBuffers (some [4]), .ocallReturns (.ok (demoMessage 2 4))]
    Event.accepted [4] ∈ (run (Pair.step Gcm.plain) demoStart moves).history ∧
      Agreement (run (Pair.step Gcm.plain) demoStart moves).history :=
  ⟨by decide, agreement_in_order Gcm.plain demoKey 0 demoId demoId _ (by decide) (by decide)⟩

/-- The host delivers the first request twice and keeps the second response back: the
handler runs twice on one request. -/
theorem replayed_request_is_handled_again :
    let moves := [Move.request [1], .serve (some (demoMessage 0 1)) demoBuffers (some [2]),
      .serve (some (demoMessage 0 1)) demoBuffers (some [2]), .ocallReturns (.ok (demoMessage 1 2)),
      .request [3], .ocallReturns (.ok (demoMessage 2 2))]
    Along (Pair.step Gcm.plain) (Authentic Gcm.plain) demoStart moves ∧
      ¬ Agreement (run (Pair.step Gcm.plain) demoStart moves).history := by
  refine ⟨by decide, ?_⟩
  intro h
  have := h.once (demoMessage 0 1)
  revert this
  decide

end PrivacyComputing.Channel
