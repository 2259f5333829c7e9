import PrivacyComputing.AnalyzerFrame

/-! Which key manager session a parser enclave reports as ready and sends its requests on. -/
namespace PrivacyComputing.Analyzer
open Calls Channel Runs

/-- The key and the peer of the last handshake, unless the session was closed after it. -/
def openHandshake : List Event → Option (Bytes × EnclaveIdentity)
  | [] => none
  | .handshake aek peer :: _ => some (aek, peer)
  | .closed _ :: _ => none
  | .ready _ :: older | .request _ :: older => openHandshake older

/-- The session is active, with the key and the peer of a handshake that is still open. -/
def Established (older : List Event) (s : DhSession) : Prop :=
  s.mStatus = .active ∧ openHandshake older = some (s.aek, s.mPeerIdentity)

def SessionLaw (older : List Event) : Event → Prop
  | .handshake _ peer => kmVerifyPeerEnclaveTrust (some peer) = .ok ()
  | .ready s | .request s => Established older s
  | .closed _ => True

/-- `init_keymgr_session` has returned success only on an established session, and requests
have been made on no other. -/
def SessionPolicy (k : Keymgr) : Prop :=
  ∀ newer older event, k.history = newer ++ event :: older → SessionLaw older event

/-- There is no session object, or its handshake has been completed and it has not been
closed. -/
def Usable (k : Keymgr) : Prop :=
  ∀ s ∈ k.mKeymgrSession, s.mStatus = .active ∧ ∀ event ∈ k.history, ¬ event.isClosed

instance (k : Keymgr) : Decidable (Usable k) :=
  inferInstanceAs (Decidable (∀ s ∈ k.mKeymgrSession, _))

structure SessionInv (k : Keymgr) : Prop where
  law : Justified SessionLaw k.history
  fresh : k.mKeymgrSession = none → k.history = []
  linked : ∀ s, k.mKeymgrSession = some s → s.mStatus = .active →
    (∀ event ∈ k.history, ¬ event.isClosed) → Established k.history s

/-- What a call that uses the session starts from. -/
def SessionReady (k : Keymgr) : Prop := SessionInv k ∧ Usable k

/-- The session object is new and nothing has been done with it. -/
def SessionNew (k : Keymgr) : Prop := k.mKeymgrSession = some newInitiator ∧ k.history = []

/-- The ecalls that may use the session. -/
def AlgoWrapper.UsesSession (W : AlgoWrapper) : Ecall → Prop
  | .initDataSource _ => W.dataSession = .sealedDataStream ∨ W.dataSession = .multiDataStream
  | .beginParseDataItem | .parseDataItem _ => True
  | .endParseDataItem => False

instance (W : AlgoWrapper) : ∀ ecall, Decidable (W.UsesSession ecall)
  | .initDataSource _ => inferInstanceAs (Decidable (_ ∨ _))
  | .beginParseDataItem | .parseDataItem _ => .isTrue trivial
  | .endParseDataItem => .isFalse id

lemma SessionReady.established {k : Keymgr} {s : DhSession} (h : SessionReady k)
    (hs : k.mKeymgrSession = some s) : Established k.history s :=
  h.1.linked s hs (h.2 s hs).1 (h.2 s hs).2

/-- Logging the use of a session that is ready. -/
lemma SessionReady.log {k : Keymgr} {s : DhSession} {event : Event} (h : SessionReady k)
    (hs : k.mKeymgrSession = some s) (he : event = .ready s ∨ event = .request s) :
    SessionReady (k.log event) := by
  have hlaw : SessionLaw k.history event := by
    obtain rfl | rfl := he
    · exact h.established hs
    · exact h.established hs
  have hopen : openHandshake (event :: k.history) = openHandshake k.history := by
    obtain rfl | rfl := he <;> rfl
  have hnot : ¬ event.isClosed := by
    obtain rfl | rfl := he <;> simp [Event.isClosed]
  refine ⟨⟨⟨hlaw, h.1.law⟩, ?_, ?_⟩, ?_⟩
  · intro hn
    cases hs.symm.trans hn
  · intro t ht hactive hclosed
    refine ⟨hactive, ?_⟩
    change openHandshake (event :: k.history) = _
    rw [hopen]
    exact (h.established ht).2
  · intro t ht
    refine ⟨(h.2 t ht).1, ?_⟩
    intro other hmem
    obtain rfl | hmem := List.mem_cons.mp hmem
    · exact hnot
    · exact (h.2 t ht).2 other hmem

lemma SessionReady.ticked {k : Keymgr} (h : SessionReady k) : SessionReady k.ticked :=
  ⟨⟨h.1.law, h.1.fresh, h.1.linked⟩, h.2⟩

/-- Only the counter of the session moves. -/
lemma SessionReady.advance {k : Keymgr} {s s' : DhSession} (h : SessionReady k)
    (hs : k.mKeymgrSession = some s) (hstatus : s'.mStatus = s.mStatus) (haek : s'.aek = s.aek)
    (hpeer : s'.mPeerIdentity = s.mPeerIdentity) :
    SessionReady { k with mKeymgrSession := some s' } := by
  have hest : Established k.history s' := by
    obtain ⟨hactive, hopen⟩ := h.established hs
    exact ⟨hstatus.trans hactive, by rw [haek, hpeer, hopen]⟩
  refine ⟨⟨h.1.law, ?_, ?_⟩, ?_⟩
  · intro hn
    cases hn
  · intro t ht _ _
    cases ht
    exact hest
  · intro t ht
    cases ht
    exact ⟨hest.1, (h.2 s hs).2⟩

lemma SessionNew.inv {k : Keymgr} (h : SessionNew k) : SessionInv k := by
  refine ⟨?_, ?_, ?_⟩
  · rw [h.2]
    trivial
  · intro hn
    cases h.1.symm.trans hn
  · intro s hs hactive
    cases h.1.symm.trans hs
    cases hactive

lemma SessionNew.establish {k : Keymgr} (h : SessionNew k) (aek : Bytes) (peer : EnclaveIdentity)
    (sessionId : UInt32) : SessionReady (k.establish aek peer sessionId) := by
  unfold Keymgr.establish
  rw [h.1, h.2]
  refine ⟨⟨⟨rfl, trivial⟩, ?_, ?_⟩, ?_⟩
  · intro hn
    cases hn
  · intro s hs _ _
    cases hs
    exact ⟨rfl, rfl⟩
  · intro s hs
    cases hs
    exact ⟨rfl, by simp [Event.isClosed]⟩

section Calls
variable {I J : Keymgr → Prop}

lemma guards_ocall (hI : ∀ k, I k → I k.ticked) (hJ : ∀ k, I k → J k) (answer : ℕ → Answer α) :
    Guards I J (ocall answer) := by
  refine .get_bind fun k => .bind (.of_modify hI) fun _ => ?_
  split
  · exact .of_throw hJ
  · exact .of_throw hJ
  · exact .of_pure

lemma guards_sdk (hI : ∀ k, I k → I k.ticked) (hJ : ∀ k, I k → J k)
    (result : ℕ → Except StxError α) : Guards I J (sdk result) := by
  refine .get_bind fun k => .bind (.of_modify hI) fun _ => ?_
  split
  · exact .of_throw hJ
  · exact .of_pure

/-- `create_session` on a new object ends with the session established, or fails. -/
theorem createSession_contract (O : Outside) :
    Contract SessionNew (createSession O) (fun _ => SessionReady) (fun _ => SessionInv) := by
  have hocall {α : Type} (answer : ℕ → Answer α) : Guards SessionNew SessionInv (ocall answer) :=
    guards_ocall (fun _ h => h) (fun _ h => h.inv) answer
  have hsdk {α : Type} (result : ℕ → Except StxError α) :
      Guards SessionNew SessionInv (sdk result) :=
    guards_sdk (fun _ h => h) (fun _ h => h.inv) result
  refine .bind (hsdk _) fun _ => .bind (hocall _) fun first => .bind (hsdk _) fun dhMsg2 => ?_
  refine .bind (hocall _) fun dhMsg3 => .bind (hsdk _) fun derived => .of_modify ?_
  intro k hk
  exact hk.establish _ _ _

lemma ready_returnsReady {k : Keymgr} (h : SessionReady k) : SessionReady k.returnsReady := by
  unfold Keymgr.returnsReady
  split
  · exact h
  · rename_i s hs
    exact h.log hs (.inl rfl)

theorem initKeymgrSession_guards (O : Outside) :
    Guards SessionReady SessionInv (initKeymgrSession O) := by
  refine Contract.get_bind ?_
  intro k hk
  split
  · refine .of_modify ?_
    intro k' hk'
    exact ready_returnsReady (hk' ▸ hk)
  · rename_i hnone
    refine .bind (Q := fun _ => SessionNew) (.of_modify ?_) fun _ => ?_
    · intro k' hk'
      subst hk'
      exact ⟨rfl, hk.1.fresh hnone⟩
    · refine .bind (createSession_contract O) fun _ => .of_modify ?_
      intro k' hk'
      exact ready_returnsReady hk'

theorem closeKeymgrSession_guards (O : Outside) :
    Guards SessionInv SessionInv (closeKeymgrSession O) := by
  refine Contract.get_bind ?_
  intro k hk
  split
  · exact .of_throw fun k' hk' => hk' ▸ hk
  · rename_i s hs
    have hticked (k' : Keymgr) (h : SessionInv k' ∧ k'.mKeymgrSession = some s) :
        SessionInv k'.ticked ∧ k'.ticked.mKeymgrSession = some s :=
      ⟨⟨h.1.law, h.1.fresh, h.1.linked⟩, h.2⟩
    refine .bind (Contract.weaken (guards_ocall hticked (fun _ h => h.1) _) ?_ (fun _ _ h => h)
      (fun _ _ h => h)) fun _ => .of_modify ?_
    · intro k' hk'
      subst hk'
      exact ⟨hk, hs⟩
    · intro k' h
      refine ⟨⟨trivial, h.1.law⟩, ?_, ?_⟩
      · intro hn
        cases h.2.symm.trans hn
      · intro t _ _ hclosed
        exact absurd rfl (hclosed _ List.mem_cons_self)

variable (c : CryptoPack) (G : Gcm) (O : Outside)

theorem receive_guards (s : DhSession) (resp : SecureMessage) :
    Contract (fun k => SessionReady k ∧ k.mKeymgrSession = some s) (receive G O s resp)
      (fun _ => SessionReady) (fun _ => SessionInv) := by
  refine .get_bind ?_
  intro k hk
  split
  · exact .of_pure fun k' hk' => hk' ▸ hk.1
  · refine .bind (Q := fun _ => SessionReady) (.of_modify ?_) fun _ => .of_pure fun _ h => h
    intro k' hk'
    subst hk'
    obtain ⟨hstatus, haek, hpeer⟩ := checkResponse_keeps G s resp
    exact hk.1.advance hk.2 hstatus haek hpeer

theorem sendRequest_guards (inpBuff : Bytes) :
    Guards SessionReady SessionInv (sendRequestRecvResponse G O inpBuff) := by
  refine Contract.get_bind ?_
  intro k hk
  split
  · exact .of_throw fun k' hk' => hk' ▸ hk.1
  · rename_i s hs
    refine .bind (Q := fun _ k => SessionReady k ∧ k.mKeymgrSession = some s)
      (.of_modify ?_) fun _ => ?_
    · intro k' hk'
      subst hk'
      exact ⟨(hk.log hs (.inr rfl)).ticked, hs⟩
    · split
      · exact .of_pure fun _ h => h.1
      · split
        · exact .of_throw fun _ h => h.1.1
        · exact .of_pure fun _ h => h.1
        · exact receive_guards G O s _

theorem requestPrivateKeyForPublicKey_guards (encode : Bytes → Bytes) (pubkey : Bytes) :
    Guards SessionReady SessionInv (requestPrivateKeyForPublicKey c G O encode pubkey) :=
  .bind (sendRequest_guards G O _) fun _ => .of_pure

end Calls

section Machine
variable (W : AlgoWrapper)

lemma guards_onKeymgr {I J : Keymgr → Prop} {m : KeymgrM α} (h : Guards I J m) :
    Guards (fun e : Enclave => I e.keymgr) (fun e => J e.keymgr) (onKeymgr m) := by
  have hzoom : Contract (fun e : Enclave => I e.keymgr ∧ True) (onKeymgr m)
      (fun _ e => I e.keymgr ∧ True) (fun _ e => J e.keymgr ∧ True) :=
    Contract.zoom h (fun _ _ => rfl) (fun _ _ _ => trivial)
  exact hzoom.weaken (fun _ he => ⟨he, trivial⟩) (fun _ _ he => he.1) (fun _ _ he => he.1)

theorem sessionFrame :
    W.Frame (fun e => SessionReady e.keymgr) (fun e => SessionInv e.keymgr) where
  fails _ he := he.1
  request _ := guards_onKeymgr (requestPrivateKeyForPublicKey_guards _ _ _ _ _)
  verified _ _ _ _ he := he
  processed _ _ _ _ _ _ _ he := he
  results _ _ _ he := he

/-- Ecalls that start from a session that is ready. -/
theorem uses_guards {ecall : Ecall} (huse : W.UsesSession ecall) :
    Guards (fun e => SessionReady e.keymgr) (fun e => SessionInv e.keymgr) (W.body ecall) := by
  have hinit := guards_onKeymgr (initKeymgrSession_guards W.outside)
  cases ecall with
  | initDataSource info => exact (sessionFrame W).initDataSource (fun _ _ _ _ he => he) hinit info
  | beginParseDataItem =>
    exact (sessionFrame W).beginParseDataItem hinit (fun _ he => he) (fun _ he => he)
  | parseDataItem inputParam =>
    exact (sessionFrame W).parseDataItem (fun _ _ _ he => he) (fun _ _ _ he => he) inputParam
  | endParseDataItem => exact huse.elim

/-- The other ecalls do not depend on the state of the session. -/
theorem other_guards {ecall : Ecall} (huse : ¬ W.UsesSession ecall) :
    Guards (fun e => SessionInv e.keymgr) (fun e => SessionInv e.keymgr) (W.body ecall) := by
  cases ecall with
  | initDataSource info =>
    change Guards _ _ (W.initDataSource info)
    unfold AlgoWrapper.initDataSource
    split
    · rename_i hkind
      exact (huse (.inl hkind)).elim
    · rename_i hkind
      exact (huse (.inr hkind)).elim
    · exact .of_modify fun _ he => he
    · exact AlgoWrapper.guards_failWith (fun _ he => he) _
  | beginParseDataItem => exact (huse trivial).elim
  | parseDataItem inputParam => exact (huse trivial).elim
  | endParseDataItem =>
    refine .bind (AlgoWrapper.guards_checkActualDataHash fun _ he => he) fun _ => ?_
    refine .bind (AlgoWrapper.guards_generateResult (fun _ he => he) (fun _ _ _ he => he))
      fun _ => ?_
    refine .bind (.of_modify fun _ he => he) fun _ => ?_
    exact guards_onKeymgr (closeKeymgrSession_guards W.outside)

theorem sessionInv_step (e : Enclave) (ecall : Ecall) (h : SessionInv e.keymgr)
    (hC : W.UsesSession ecall → Usable e.keymgr) : SessionInv (W.step e ecall).keymgr := by
  have hreturned (b : Bool) (e : Enclave) (he : SessionInv e.keymgr) :
      SessionInv (AlgoWrapper.returned ecall b e).keymgr := by
    cases ecall <;> exact he
  by_cases huse : W.UsesSession ecall
  · exact AlgoWrapper.step_of_body ((uses_guards W huse).ends fun _ he => he.1) hreturned
      (fun _ he => he) h (fun _ => ⟨h, hC huse⟩)
  · exact AlgoWrapper.step_of_body (other_guards W huse) hreturned (fun _ he => he) h (fun _ => h)

/-- When no ecall uses a session whose handshake failed or that has been closed, a session is
reported ready and used for requests only while it is established. -/
theorem session_used_while_established (ecalls : List Ecall)
    (hC : Along W.step (fun e ecall => W.UsesSession ecall → Usable e.keymgr) W.start ecalls) :
    SessionPolicy (run W.step W.start ecalls).keymgr := by
  have hstart : SessionInv W.start.keymgr := by
    refine ⟨trivial, fun _ => rfl, ?_⟩
    intro s hs
    cases hs
  have hinv : SessionInv (run W.step W.start ecalls).keymgr :=
    @run_invariant _ _ _ _ (fun e => SessionInv e.keymgr) (sessionInv_step W) _ _ hstart hC
  have hlaw := hinv.law
  intro newer older event hsplit
  rw [hsplit] at hlaw
  exact hlaw.at_event

end Machine

section Demo

theorem session_used_in_order :
    Event.closed 0 ∈ (run demoWrapper.step demoWrapper.start demoEcalls).keymgr.history ∧
    SessionPolicy (run demoWrapper.step demoWrapper.start demoEcalls).keymgr := by
  exact ⟨by decide +kernel, session_used_while_established _ _ (by decide +kernel)⟩

/-- The same enclave on a host that refuses its first session request. -/
def failingWrapper : AlgoWrapper :=
  { demoWrapper with outside := { demoOutside with
      sessionRequest := fun t => if t = 1 then .status (.code 1) else .ok ([], 0) } }

/-- After a handshake that failed, the next ecall finds a session and makes its request under
a key of zeros. -/
theorem failed_session_is_used :
    ¬ SessionPolicy (run failingWrapper.step failingWrapper.start
      [.beginParseDataItem, .initDataSource [5]]).keymgr := by
  have hhistory : (run failingWrapper.step failingWrapper.start
      [.beginParseDataItem, .initDataSource [5]]).keymgr.history =
      [.request newInitiator, .ready newInitiator] := by decide +kernel
  intro h
  have hlaw : Established [.ready newInitiator] newInitiator := h [] _ _ hhistory
  cases hlaw.1

end Demo
end PrivacyComputing.Analyzer
