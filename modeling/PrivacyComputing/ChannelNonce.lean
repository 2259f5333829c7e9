import PrivacyComputing.ChannelPair

/-! The IVs of a channel. Each end takes them from a counter of its own, the initiator
before it advances and the responder after, so from the second request on the two
ends meet on the same IV. -/
namespace PrivacyComputing.Channel
open Runs

/-- Encryptions with one IV have one plain text. -/
def NonceUnique (history : List Event) : Prop :=
  ∀ e ∈ history, ∀ e' ∈ history, ∀ iv data data',
    e.encryption = some (iv, data) → e'.encryption = some (iv, data') → data = data'

def Event.requestData : Event → Option Bytes
  | .requested _ data => some data
  | _ => none

/-- The channel is used for one exchange: no request after a response has been accepted, a
repeated request before that has the same data, and the responder's counter does not
wrap. -/
def OneExchange (s : Pair) : Move → Prop
  | .request inpBuff => s.initiator.counter = 0 ∧
      ∀ e ∈ s.history, ∀ data ∈ e.requestData, data = cut inpBuff
  | .ocallReturns _ => True
  | .serve .. => s.responder.counter + 1 ≠ 0

instance (s : Pair) (move : Move) : Decidable (OneExchange s move) := by
  cases move <;> unfold OneExchange <;> infer_instance

lemma nonce_injective {a b : UInt32} (h : nonce a = nonce b) : a = b := by
  have hd : a.toNat = b.toNat := by rw [← decode_nonce a, h, decode_nonce b]
  exact UInt32.toNat_inj.mp hd

lemma toNat_succ {a : UInt32} (h : a + 1 ≠ 0) : (a + 1).toNat = a.toNat + 1 := by
  have hlt := a.toNat_lt
  have hadd : (a + 1).toNat = (a.toNat + 1) % 2 ^ 32 := UInt32.toNat_add a 1
  have hne : (a + 1).toNat ≠ 0 := fun hz => h (UInt32.toNat_inj.mp hz)
  omega

lemma nonceUnique_quiet {history : List Event} {e : Event} (he : e.encryption = none)
    (h : NonceUnique history) : NonceUnique (e :: history) := by
  intro a ha b hb iv data data' hda hdb
  obtain rfl | ha := List.mem_cons.mp ha
  · rw [he] at hda
    cases hda
  · obtain rfl | hb := List.mem_cons.mp hb
    · rw [he] at hdb
      cases hdb
    · exact h a ha b hb iv data data' hda hdb

lemma nonceUnique_encrypt {history : List Event} {e : Event} {iv data : Bytes}
    (he : e.encryption = some (iv, data)) (h : NonceUnique history)
    (hnew : ∀ e' ∈ history, ∀ data', e'.encryption = some (iv, data') → data' = data) :
    NonceUnique (e :: history) := by
  intro a ha b hb iv' p p' hp hp'
  obtain haeq | ha := List.mem_cons.mp ha
  · rw [haeq, he] at hp
    obtain ⟨rfl, rfl⟩ := Prod.mk.inj (Option.some.inj hp)
    obtain hbeq | hb := List.mem_cons.mp hb
    · rw [hbeq, he] at hp'
      exact (Prod.mk.inj (Option.some.inj hp')).2
    · exact (hnew b hb p' hp').symm
  · obtain hbeq | hb := List.mem_cons.mp hb
    · rw [hbeq, he] at hp'
      obtain ⟨rfl, rfl⟩ := Prod.mk.inj (Option.some.inj hp')
      exact hnew a ha p hp
    · exact h a ha b hb iv' p p' hp hp'

structure NonceInv (s : Pair) : Prop where
  unique : NonceUnique s.history
  requests : ∀ m data, .requested m data ∈ s.history → m.reserved = nonce 0
  responses : ∀ m data, .responded m data ∈ s.history →
    ∃ j : UInt32, m.reserved = nonce j ∧ 0 < j.toNat ∧ j.toNat ≤ s.responder.counter.toNat

section Run
variable (G : Gcm)

lemma nonceInv_quiet {s : Pair} (h : NonceInv s) (e : Event) (he : e.encryption = none)
    {t : Pair} (ht : t.history = e :: s.history)
    (hc : s.responder.counter.toNat ≤ t.responder.counter.toNat) : NonceInv t := by
  refine ⟨?_, ?_, ?_⟩
  · rw [ht]
    exact nonceUnique_quiet he h.unique
  · intro m data hm
    rw [ht] at hm
    obtain rfl | hm := List.mem_cons.mp hm
    · cases he
    · exact h.requests m data hm
  · intro m data hm
    rw [ht] at hm
    obtain rfl | hm := List.mem_cons.mp hm
    · cases he
    · obtain ⟨j, hj, hpos, hle⟩ := h.responses m data hm
      exact ⟨j, hj, hpos, by omega⟩

theorem nonceInv_requested {s : Pair} (h : NonceInv s) {inpBuff : Bytes} {m : SecureMessage}
    (hcond : OneExchange s (.request inpBuff))
    (hseal : s.initiator.sealMessage G inpBuff = .ok m) :
    NonceInv { s with
      pending := some m
      history := .requested m (cut inpBuff) :: s.history } := by
  obtain ⟨hzero, hsame⟩ := hcond
  have hiv : m.reserved = nonce 0 := by rw [sealMessage_reserved G hseal, hzero]
  refine ⟨nonceUnique_encrypt rfl h.unique ?_, ?_, ?_⟩
  · intro e he data hd
    cases e with
    | requested m' data' =>
      rw [← (Prod.mk.inj (Option.some.inj hd)).2]
      exact hsame _ he _ rfl
    | responded m' data' =>
      obtain ⟨j, hj, hpos, -⟩ := h.responses m' data' he
      have heq : nonce j = nonce 0 := by
        rw [← hj, ← hiv]
        exact (Prod.mk.inj (Option.some.inj hd)).1
      rw [nonce_injective heq] at hpos
      exact absurd hpos (by decide)
    | handled m' data' out => cases hd
    | accepted data' => cases hd
  · intro m' data' hm
    obtain heq | hm := List.mem_cons.mp hm
    · cases heq
      exact hiv
    · exact h.requests m' data' hm
  · intro m' data' hm
    obtain heq | hm := List.mem_cons.mp hm
    · cases heq
    · exact h.responses m' data' hm

theorem nonceInv_answered {s : Pair} (h : NonceInv s) {m r : SecureMessage} {data respStr : Bytes}
    {out : Option Bytes} (hnowrap : s.responder.counter + 1 ≠ 0)
    (hseal : { s.responder with counter := s.responder.counter + 1 }.sealMessage G respStr =
      .ok r) :
    NonceInv { s with
      responder := { s.responder with counter := s.responder.counter + 1 }
      history := .responded r (cut respStr) :: .handled m data out :: s.history } := by
  have hsucc := toNat_succ hnowrap
  have hiv : r.reserved = nonce (s.responder.counter + 1) := sealMessage_reserved G hseal
  have hq := nonceInv_quiet h (.handled m data out) rfl (t := { s with
    history := .handled m data out :: s.history }) rfl le_rfl
  refine ⟨nonceUnique_encrypt rfl hq.unique ?_, ?_, ?_⟩
  · intro e he data' hd
    cases e with
    | requested m' p =>
      have heq : nonce 0 = nonce (s.responder.counter + 1) := by
        rw [← hq.requests m' p he, ← hiv]
        exact (Prod.mk.inj (Option.some.inj hd)).1
      exact absurd (nonce_injective heq).symm hnowrap
    | responded m' p =>
      obtain ⟨j, hj, -, hle⟩ := hq.responses m' p he
      have heq : nonce j = nonce (s.responder.counter + 1) := by
        rw [← hj, ← hiv]
        exact (Prod.mk.inj (Option.some.inj hd)).1
      rw [nonce_injective heq] at hle
      dsimp only at hle
      omega
    | handled m' p o => cases hd
    | accepted p => cases hd
  · intro m' p hm
    obtain heq | hm := List.mem_cons.mp hm
    · cases heq
    · exact hq.requests m' p hm
  · intro m' p hm
    obtain heq | hm := List.mem_cons.mp hm
    · cases heq
      exact ⟨_, hiv, by omega, le_rfl⟩
    · obtain ⟨j, hj, hpos, hle⟩ := hq.responses m' p hm
      refine ⟨j, hj, hpos, ?_⟩
      dsimp only at hle ⊢
      omega

theorem nonceInv_step (s : Pair) (move : Move) (h : NonceInv s) (hcond : OneExchange s move) :
    NonceInv (s.step G move) := by
  have hstep := step_spec G s move
  generalize s.step G move = t at hstep ⊢
  cases hstep with
  | idle => exact h
  | requested inpBuff m free hseal => exact nonceInv_requested G h hcond hseal
  | dropped answer => exact ⟨h.unique, h.requests, h.responses⟩
  | accepted m resp data waiting opened fresh =>
    exact nonceInv_quiet h (.accepted data) rfl rfl le_rfl
  | handled m buffers out data counter opened hcounter =>
    have hsucc := toNat_succ hcond
    apply nonceInv_quiet h (.handled m data out) rfl rfl
    obtain rfl | rfl := hcounter
    · exact le_rfl
    · dsimp only
      omega
  | answered m buffers respStr data r opened fits hseal =>
    exact nonceInv_answered G h hcond hseal

/-- As long as the channel carries one exchange, no IV is used for two plain texts. -/
theorem nonce_unique_in_one_exchange (aek : Bytes) (sessionId : UInt32)
    (responderId initiatorId : EnclaveIdentity) (moves : List Move)
    (hcond : Along (Pair.step G) OneExchange
      (Pair.start aek sessionId responderId initiatorId) moves) :
    NonceUnique (run (Pair.step G) (Pair.start aek sessionId responderId initiatorId)
      moves).history := by
  have hstart : NonceInv (Pair.start aek sessionId responderId initiatorId) := by
    refine ⟨?_, ?_, ?_⟩
    · intro e he
      cases he
    · intro m data hm
      cases hm
    · intro m data hm
      cases hm
  exact (run_invariant (nonceInv_step G) hstart hcond).unique

end Run

def demoStart : Pair := Pair.start demoKey 0 demoId demoId

theorem nonce_unique_in_a_retried_exchange :
    let moves := [Move.request [1], .ocallReturns (.error (.code 7)), .request [1],
      .serve (some (demoMessage 0 1)) demoBuffers (some [2]), .ocallReturns (.ok (demoMessage 1 2))]
    (run (Pair.step Gcm.plain) demoStart moves).history.length = 5 ∧
      NonceUnique (run (Pair.step Gcm.plain) demoStart moves).history :=
  ⟨by decide, nonce_unique_in_one_exchange Gcm.plain demoKey 0 demoId demoId _ (by decide)⟩

/-- An honest host, two requests: the second request is encrypted under the IV of the first
response. -/
theorem second_request_reuses_nonce :
    ¬ NonceUnique (run (Pair.step Gcm.plain) demoStart
      [.request [1], .serve (some (demoMessage 0 1)) demoBuffers (some [2]),
        .ocallReturns (.ok (demoMessage 1 2)), .request [3]]).history := by
  intro h
  have hreq : Event.requested (demoMessage 1 3) [3] ∈ (run (Pair.step Gcm.plain) demoStart
      [.request [1], .serve (some (demoMessage 0 1)) demoBuffers (some [2]),
        .ocallReturns (.ok (demoMessage 1 2)), .request [3]]).history := by decide
  have hresp : Event.responded (demoMessage 1 2) [2] ∈ (run (Pair.step Gcm.plain) demoStart
      [.request [1], .serve (some (demoMessage 0 1)) demoBuffers (some [2]),
        .ocallReturns (.ok (demoMessage 1 2)), .request [3]]).history := by decide
  have heq := h _ hreq _ hresp (nonce 1) [3] [2] rfl rfl
  cases heq

end PrivacyComputing.Channel
