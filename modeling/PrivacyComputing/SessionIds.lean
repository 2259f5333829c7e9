import PrivacyComputing.KeymgrEcalls

/-! Session numbers of `dh_session_responder`. The responder counts with 32 bits and an open session
may be of any age, so its runs are compared with a registry that never uses a number twice. -/
namespace PrivacyComputing.Channel
open Runs

/-- The requests counted so far and the sessions that are open, each named by the request that has
opened it. -/
structure Registry where
  next : ℕ
  opened : List ℕ

/-- The 32-bit name of a session. -/
def sessionName (first : UInt32) (k : ℕ) : UInt32 := first + UInt32.ofNat k

section Registry
variable {D Msg1 Msg2 Msg3 : Type*} (G : Gcm) (sdk : ResponderSdk D Msg2 Msg3)
  (handlePkg : Bytes → DhSession → Option Bytes) (first : UInt32)

def Registry.step (a : Registry) : Ecall D Msg1 Msg2 → Registry
  | .msessionRequest true (.ok _) => ⟨a.next + 1, a.next :: a.opened⟩
  | .msessionRequest true (.error _) => ⟨a.next + 1, a.opened⟩
  | .mendSession sessionId => ⟨a.next, a.opened.filter fun k => sessionName first k ≠ sessionId⟩
  | _ => a

/-- No open session is older than the new one by a multiple of 2^32 requests. -/
def Registry.HasRoom (a : Registry) : Ecall D Msg1 Msg2 → Prop
  | .msessionRequest true (.ok _) => ∀ k ∈ a.opened, ¬2 ^ 32 ∣ a.next - k
  | _ => True

def DhResponder.after (r : DhResponder D) (call : Ecall D Msg1 Msg2) : DhResponder D :=
  (r.call G sdk handlePkg call).2

/-- A successful session request returns a number that is not in the table and maps to the new
instance afterwards. No other entry changes. -/
def Fresh (r : DhResponder D) (call : Ecall D Msg1 Msg2) : Prop :=
  ∀ msg1 sessionId, (r.call G sdk handlePkg call).1 = .session (.ok msg1) (some sessionId) →
    r.mAllSessions sessionId = none ∧
      ∃ pointers d, call = .msessionRequest pointers (.ok (msg1, d)) ∧
        (ResponderInstance.new d).session.mStatus = .inProgress ∧
        (r.after G sdk handlePkg call).mAllSessions =
          Function.update r.mAllSessions sessionId (some ⟨.new d, r.verifier⟩)

structure Registered (r : DhResponder D) (a : Registry) : Prop where
  next : r.mNextSessionId = sessionName first a.next
  older : ∀ k ∈ a.opened, k < a.next
  table : ∀ sessionId, (r.mAllSessions sessionId).isSome = true ↔
    ∃ k ∈ a.opened, sessionName first k = sessionId

lemma sessionName_succ (k : ℕ) : sessionName first k + 1 = sessionName first (k + 1) := by
  rw [sessionName, sessionName, UInt32.ofNat_add, UInt32.add_assoc]
  rfl

lemma sessionName_eq_iff {k n : ℕ} (h : k < n) :
    sessionName first k = sessionName first n ↔ 2 ^ 32 ∣ n - k := by
  rw [sessionName, sessionName, UInt32.add_right_inj, ← UInt32.toNat_inj, UInt32.toNat_ofNat',
    UInt32.toNat_ofNat']
  omega

lemma isSome_store (r : DhResponder D) (p : ResponderSession D) (sid sid' : UInt32) :
    ((r.store sid p).mAllSessions sid').isSome = true ↔
      sid' = sid ∨ (r.mAllSessions sid').isSome = true := by
  unfold DhResponder.store
  by_cases h : sid' = sid
  · simp [h]
  · simp [h]

lemma isSome_store_of_some {r : DhResponder D} {sid : UInt32} {p : ResponderSession D}
    (hp : r.mAllSessions sid = some p) (p' : ResponderSession D) (sid' : UInt32) :
    ((r.store sid p').mAllSessions sid').isSome = (r.mAllSessions sid').isSome := by
  rw [Bool.eq_iff_iff, isSome_store, or_iff_right_iff_imp]
  rintro rfl
  simp [hp]

lemma call_session {r : DhResponder D} {call : Ecall D Msg1 Msg2} {msg1 : Msg1} {sid : UInt32}
    (h : (r.call G sdk handlePkg call).1 = .session (.ok msg1) (some sid)) :
    sid = r.mNextSessionId ∧ ∃ d, call = .msessionRequest true (.ok (msg1, d)) := by
  cases call with
  | msessionRequest pointers gen =>
    cases pointers with
    | false => cases h
    | true =>
      rcases gen with e | ⟨msg1', d⟩
      · cases h
      · cases h
        exact ⟨rfl, d, rfl⟩
  | mexchangeReport msg2 msg3 sid => cases h
  | mgenerateResponse req buffers sid => cases h
  | mendSession sid => cases h

lemma fresh_request_iff (r : DhResponder D) (made : Msg1 × D) :
    Fresh G sdk handlePkg r (.msessionRequest true (.ok made) : Ecall D Msg1 Msg2) ↔
      r.mAllSessions r.mNextSessionId = none := by
  obtain ⟨msg1, d⟩ := made
  constructor
  · intro h
    exact (h msg1 r.mNextSessionId rfl).1
  · intro hnone msg1' sid h
    cases h
    refine ⟨hnone, true, d, rfl, rfl, ?_⟩
    simp [DhResponder.after, DhResponder.call, DhResponder.sessionRequest, DhResponder.store,
      hnone]

lemma fresh_of_no_request {r : DhResponder D} {call : Ecall D Msg1 Msg2}
    (h : ∀ made, call ≠ .msessionRequest true (.ok made)) : Fresh G sdk handlePkg r call := by
  intro msg1 sid hcall
  obtain ⟨-, d, rfl⟩ := call_session G sdk handlePkg hcall
  exact absurd rfl (h _)

variable {first}

lemma Registered.next_free_iff {r : DhResponder D} {a : Registry} (h : Registered first r a) :
    r.mAllSessions r.mNextSessionId = none ↔ ∀ k ∈ a.opened, ¬2 ^ 32 ∣ a.next - k := by
  rw [← Option.not_isSome_iff_eq_none, h.table, h.next]
  simp only [not_exists, not_and]
  constructor
  · intro hfree k hk hdvd
    exact hfree k hk ((sessionName_eq_iff first (h.older k hk)).mpr hdvd)
  · intro hroom k hk heq
    exact hroom k hk ((sessionName_eq_iff first (h.older k hk)).mp heq)

theorem Registered.fresh_iff {r : DhResponder D} {a : Registry} (h : Registered first r a)
    (call : Ecall D Msg1 Msg2) : Fresh G sdk handlePkg r call ↔ a.HasRoom call := by
  cases call with
  | msessionRequest pointers gen =>
    cases pointers with
    | false => exact iff_of_true (fresh_of_no_request G sdk handlePkg (by simp)) trivial
    | true =>
      cases gen with
      | error e => exact iff_of_true (fresh_of_no_request G sdk handlePkg (by simp)) trivial
      | ok made => exact (fresh_request_iff G sdk handlePkg r made).trans h.next_free_iff
  | mexchangeReport msg2 msg3 sid =>
    exact iff_of_true (fresh_of_no_request G sdk handlePkg (by simp)) trivial
  | mgenerateResponse req buffers sid =>
    exact iff_of_true (fresh_of_no_request G sdk handlePkg (by simp)) trivial
  | mendSession sid => exact iff_of_true (fresh_of_no_request G sdk handlePkg (by simp)) trivial

/-- A call that keeps the counter and the numbers in the table. -/
lemma Registered.congr {r r' : DhResponder D} {a : Registry} (h : Registered first r a)
    (hnext : r'.mNextSessionId = r.mNextSessionId)
    (htable : ∀ sid, (r'.mAllSessions sid).isSome = (r.mAllSessions sid).isSome) :
    Registered first r' a := by
  refine ⟨hnext.trans h.next, h.older, ?_⟩
  intro sid
  rw [htable, h.table]

lemma Registry.older_step (first : UInt32) {a : Registry} (h : ∀ k ∈ a.opened, k < a.next)
    (call : Ecall D Msg1 Msg2) :
    ∀ k ∈ (a.step first call).opened, k < (a.step first call).next := by
  cases call with
  | msessionRequest pointers gen =>
    cases pointers with
    | false => exact h
    | true =>
      cases gen with
      | error e => exact fun k hk => Nat.lt_succ_of_lt (h k hk)
      | ok made =>
        intro k hk
        rcases List.mem_cons.mp hk with rfl | hk
        · exact Nat.lt_succ_self _
        · exact Nat.lt_succ_of_lt (h k hk)
  | mexchangeReport msg2 msg3 sid => exact h
  | mgenerateResponse req buffers sid => exact h
  | mendSession sid => exact fun k hk => h k (List.mem_of_mem_filter hk)

lemma Registered.request {r : DhResponder D} {a : Registry} (h : Registered first r a)
    (gen : Except StxError (Msg1 × D)) :
    Registered first (r.after G sdk handlePkg (.msessionRequest true gen))
      (a.step first (.msessionRequest true gen : Ecall D Msg1 Msg2)) := by
  have hcount : r.mNextSessionId + 1 = sessionName first (a.next + 1) := by
    rw [h.next, sessionName_succ]
  have holder := Registry.older_step first h.older
    (.msessionRequest true gen : Ecall D Msg1 Msg2)
  cases gen with
  | error e => exact ⟨hcount, holder, h.table⟩
  | ok made =>
    refine ⟨hcount, holder, ?_⟩
    intro sid
    have hstore := isSome_store { r with mNextSessionId := r.mNextSessionId + 1 }
      ((r.mAllSessions r.mNextSessionId).getD ⟨.new made.2, r.verifier⟩) r.mNextSessionId sid
    refine hstore.trans ?_
    simp only [h.table, h.next, Registry.step, List.mem_cons, exists_eq_or_imp, eq_comm]

lemma Registered.exchange {r : DhResponder D} {a : Registry} (h : Registered first r a)
    (msg2 : Option Msg2) (msg3 : Bool) (sid : UInt32) :
    Registered first (r.exchangeReport sdk msg2 msg3 sid).2 a := by
  unfold DhResponder.exchangeReport
  cases hp : r.mAllSessions sid with
  | none => exact h
  | some p =>
    dsimp only
    split_ifs
    · exact h
    · cases msg2 with
      | none => exact h
      | some m => exact h
    · cases msg2 with
      | none => exact h
      | some m => exact h.congr rfl (isSome_store_of_some hp _)

lemma Registered.response {r : DhResponder D} {a : Registry} (h : Registered first r a)
    (req : Option SecureMessage) (buffers : ReplyBuffers) (sid : UInt32) :
    Registered first (r.generateResponse G handlePkg req buffers sid).2 a := by
  unfold DhResponder.generateResponse
  cases hp : r.mAllSessions sid with
  | none => exact h
  | some p => exact h.congr rfl (isSome_store_of_some hp _)

lemma Registered.endSession {r : DhResponder D} {a : Registry} (h : Registered first r a)
    (sid : UInt32) : Registered first (r.endSession sid).2
      ⟨a.next, a.opened.filter fun k => sessionName first k ≠ sid⟩ := by
  have htable : ∀ sid', ((r.endSession sid).2.mAllSessions sid').isSome = true ↔
      sid' ≠ sid ∧ (r.mAllSessions sid').isSome = true := by
    intro sid'
    unfold DhResponder.endSession
    cases hp : r.mAllSessions sid with
    | none =>
      refine (and_iff_right_of_imp ?_).symm
      rintro hsome rfl
      simp [hp] at hsome
    | some p =>
      by_cases heq : sid' = sid <;> simp [heq]
  refine ⟨?_, fun k hk => h.older k (List.mem_of_mem_filter hk), ?_⟩
  · unfold DhResponder.endSession
    cases r.mAllSessions sid <;> exact h.next
  · intro sid'
    rw [htable, h.table]
    simp only [List.mem_filter, decide_eq_true_eq, ne_eq]
    constructor
    · rintro ⟨hne, k, hk, rfl⟩
      exact ⟨k, ⟨hk, hne⟩, rfl⟩
    · rintro ⟨k, ⟨hk, hne⟩, rfl⟩
      exact ⟨hne, k, hk, rfl⟩

theorem Registered.after {r : DhResponder D} {a : Registry} (h : Registered first r a)
    (call : Ecall D Msg1 Msg2) :
    Registered first (r.after G sdk handlePkg call) (a.step first call) := by
  cases call with
  | msessionRequest pointers gen =>
    cases pointers with
    | false => exact h
    | true => exact h.request G sdk handlePkg gen
  | mexchangeReport msg2 msg3 sid => exact h.exchange sdk msg2 msg3 sid
  | mgenerateResponse req buffers sid => exact h.response G handlePkg req buffers sid
  | mendSession sid => exact h.endSession sid

/-- A new responder. Its counter starts anywhere. -/
def DhResponder.start (first : UInt32) (verifier : Bool) : DhResponder D :=
  ⟨fun _ => none, first, verifier⟩

lemma registered_start (first : UInt32) (verifier : Bool) :
    Registered (D := D) first (.start first verifier) ⟨0, []⟩ := by
  refine ⟨(UInt32.add_zero first).symm, ?_, ?_⟩
  · intro k hk
    cases hk
  · intro sid
    simp [DhResponder.start]

lemma Registered.fresh_run_iff {r : DhResponder D} {a : Registry} (h : Registered first r a)
    (calls : List (Ecall D Msg1 Msg2)) :
    Along (DhResponder.after G sdk handlePkg) (Fresh G sdk handlePkg) r calls ↔
      Along (Registry.step first) Registry.HasRoom a calls :=
  along_iff_of_simulation (fun _ _ call hr => hr.after G sdk handlePkg call)
    (fun _ _ call hr => hr.fresh_iff G sdk handlePkg call) h calls

/-- The calls that advance `m_next_session_id`. -/
def Ecall.counted : Ecall D Msg1 Msg2 → Bool
  | .msessionRequest true _ => true
  | _ => false

lemma Registry.next_step (a : Registry) (call : Ecall D Msg1 Msg2) :
    (a.step first call).next = a.next + if call.counted then 1 else 0 := by
  cases call with
  | msessionRequest pointers gen =>
    cases pointers with
    | false => rfl
    | true => cases gen <;> rfl
  | mexchangeReport msg2 msg3 sid => rfl
  | mgenerateResponse req buffers sid => rfl
  | mendSession sid => rfl

lemma Registry.hasRoom_of_lt {a : Registry} (h : ∀ k ∈ a.opened, k < a.next)
    (call : Ecall D Msg1 Msg2) (hfew : call.counted = true → a.next < 2 ^ 32) : a.HasRoom call := by
  cases call with
  | msessionRequest pointers gen =>
    cases pointers with
    | false => trivial
    | true =>
      cases gen with
      | error e => trivial
      | ok made =>
        intro k hk hdvd
        have hlt := h k hk
        have hnext := hfew rfl
        have hle := Nat.le_of_dvd (by omega) hdvd
        omega
  | mexchangeReport msg2 msg3 sid => trivial
  | mgenerateResponse req buffers sid => trivial
  | mendSession sid => trivial

/-- A run with no more requests than there are numbers has room for all of them. -/
theorem Registry.few_requests_have_room {a : Registry} (h : ∀ k ∈ a.opened, k < a.next)
    (calls : List (Ecall D Msg1 Msg2)) (hfew : a.next + calls.countP Ecall.counted ≤ 2 ^ 32) :
    Along (Registry.step first) Registry.HasRoom a calls := by
  induction calls generalizing a with
  | nil => trivial
  | cons call calls ih =>
    rw [List.countP_cons] at hfew
    refine ⟨hasRoom_of_lt h call ?_, ih (older_step first h call) ?_⟩
    · intro hcounted
      rw [if_pos hcounted] at hfew
      omega
    · rw [next_step]
      omega

/-- The session requests of a run all give fresh numbers exactly when each that succeeds is made
while no session is open that a multiple of 2^32 requests has passed by. -/
theorem session_ids_fresh_iff (first : UInt32) (verifier : Bool)
    (calls : List (Ecall D Msg1 Msg2)) :
    Along (DhResponder.after G sdk handlePkg) (Fresh G sdk handlePkg) (.start first verifier)
        calls ↔
      Along (Registry.step first) Registry.HasRoom ⟨0, []⟩ calls :=
  (registered_start first verifier).fresh_run_iff G sdk handlePkg calls

end Registry

section Demo

lemma opened_after_requests (first : UInt32) (n : ℕ) :
    run (Registry.step first) ⟨0, []⟩
        (List.replicate (n + 1) (.msessionRequest true (.ok ((), ())) : Ecall Unit Unit Unit)) =
      ⟨n + 1, (List.range (n + 1)).reverse⟩ := by
  induction n with
  | zero => rfl
  | succ n ih =>
    rw [List.replicate_succ', run_append, ih]
    simp [Registry.step, List.range_succ]

/-- One request more than there are numbers, all of them successful. -/
theorem number_given_twice :
    ¬Along (DhResponder.after Gcm.plain demoSdk demoHandler) (Fresh Gcm.plain demoSdk demoHandler)
      (.start 0 true) (List.replicate (2 ^ 32 + 1)
        (.msessionRequest true (.ok ((), ())) : Ecall Unit Unit Unit)) := by
  rw [(registered_start 0 true).fresh_run_iff, List.replicate_succ', along_append,
    show 2 ^ 32 = (2 ^ 32 - 1) + 1 by rfl, opened_after_requests]
  rintro ⟨-, hroom, -⟩
  exact hroom 0 (by simp) (by simp)

end Demo
end PrivacyComputing.Channel
