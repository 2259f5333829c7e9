import PrivacyComputing.AnalyzerFrame

/-! To which request a generated result belongs: which ecall has set the members that
`generate_result` reads. -/
namespace PrivacyComputing.Analyzer
open Calls DataProvider Runs

variable {W : AlgoWrapper}

/-- The latest return of `parse_data_item`. -/
def lastParse : List AuditEvent → Option (ℕ × Bool)
  | [] => none
  | .parsed call success :: _ => some (call, success)
  | .verified .. :: older | .doParse .. :: older | .generated _ :: older => lastParse older

def RequestVars.SetBy (v : RequestVars) (call : ℕ) : Prop :=
  v.mPkey4v.setBy = some call ∧ v.mPrivateKey.setBy = some call ∧
    v.mEncryptedParam.setBy = some call ∧ v.mResult.setBy = some call ∧
    v.mDataHash.setBy = some call

/-- One and the same successful call of `parse_data_item` has set all the members. -/
def OneRequest (older : List AuditEvent) (v : RequestVars) : Prop :=
  ∃ call, .parsed call true ∈ older ∧ v.SetBy call

def ParsedLast (older : List AuditEvent) : Prop := ∃ call, lastParse older = some (call, true)

def Bound (older : List AuditEvent) : AuditEvent → Prop
  | .generated v => OneRequest older v ↔ ParsedLast older
  | _ => True

/-- What the latest `parse_data_item` has done to the members. -/
def LastSet (audit : List AuditEvent) (v : RequestVars) : Prop :=
  match lastParse audit with
  | none => True
  | some (call, true) => v.SetBy call
  | some (call, false) => v.mPkey4v.setBy = some call ∧ .parsed call true ∉ audit

structure RequestInv (e : Enclave) : Prop where
  law : Justified Bound e.audit
  earlier : ∀ call success, .parsed call success ∈ e.audit → call < e.calls
  last : ¬ e.crashed → LastSet e.audit e.vars

lemma lastParse_mem {audit : List AuditEvent} {call : ℕ} {success : Bool}
    (h : lastParse audit = some (call, success)) : .parsed call success ∈ audit := by
  induction audit with
  | nil => cases h
  | cons event audit ih =>
    cases event with
    | parsed call' success' =>
      cases h
      exact List.mem_cons_self
    | verified _ _ _ _ => exact List.mem_cons_of_mem _ (ih h)
    | doParse _ _ _ => exact List.mem_cons_of_mem _ (ih h)
    | generated _ => exact List.mem_cons_of_mem _ (ih h)

lemma lastParse_isSome {audit : List AuditEvent} {call : ℕ} {success : Bool}
    (hmem : .parsed call success ∈ audit) : lastParse audit ≠ none := by
  induction audit with
  | nil => cases hmem
  | cons event audit ih =>
    cases event with
    | parsed call' success' => simp [lastParse]
    | verified _ _ _ _ => exact ih (List.mem_of_ne_of_mem (by simp) hmem)
    | doParse _ _ _ => exact ih (List.mem_of_ne_of_mem (by simp) hmem)
    | generated _ => exact ih (List.mem_of_ne_of_mem (by simp) hmem)

/-- The members belong to one request exactly when the latest request succeeded: a request that
fails has already replaced the public key. -/
theorem oneRequest_iff {audit : List AuditEvent} {v : RequestVars} (h : LastSet audit v) :
    OneRequest audit v ↔ ParsedLast audit := by
  unfold LastSet at h
  constructor
  · rintro ⟨call, hmem, hset⟩
    cases hl : lastParse audit with
    | none => exact absurd hl (lastParse_isSome hmem)
    | some last =>
      obtain ⟨call', success⟩ := last
      cases success with
      | true => exact ⟨call', hl⟩
      | false =>
        rw [hl] at h
        have hcall : call' = call := Option.some.inj (h.1.symm.trans hset.1)
        subst hcall
        exact absurd hmem h.2
  · rintro ⟨call, hl⟩
    rw [hl] at h
    exact ⟨call, lastParse_mem hl, h⟩

/-- Events that are no return of `parse_data_item` and do not break the law. -/
def Quiet (older : List AuditEvent) (event : AuditEvent) : Prop :=
  Bound older event ∧ ∀ call success, event ≠ .parsed call success

lemma lastParse_quiet {audit : List AuditEvent} {event : AuditEvent} (h : Quiet audit event) :
    lastParse (event :: audit) = lastParse audit := by
  cases event with
  | parsed call success => exact absurd rfl (h.2 call success)
  | verified _ _ _ _ => rfl
  | doParse _ _ _ => rfl
  | generated _ => rfl

lemma mem_quiet {audit : List AuditEvent} {event : AuditEvent} (h : Quiet audit event) {call : ℕ}
    {success : Bool} : .parsed call success ∈ event :: audit ↔ .parsed call success ∈ audit := by
  constructor
  · intro hmem
    obtain heq | hmem := List.mem_cons.mp hmem
    · exact absurd heq.symm (h.2 call success)
    · exact hmem
  · exact List.mem_cons_of_mem _

/-- While `parse_data_item` number `n` runs, with what it has set so far. -/
structure Writing (n : ℕ) (S : RequestVars → Prop) (e : Enclave) : Prop where
  law : Justified Bound e.audit
  earlier : ∀ call success, .parsed call success ∈ e.audit → call < n
  calls : e.calls = n
  vars : S e.vars

/-- Between ecalls that do not parse. -/
structure Live (e : Enclave) : Prop where
  inv : RequestInv e
  running : ¬ e.crashed

/-- Nothing else of the enclave matters here. -/
lemma Live.same {e e' : Enclave} (h : Live e) (hsame : e'.audit = e.audit ∧ e'.calls = e.calls ∧
    e'.vars = e.vars ∧ e'.crashed = e.crashed) : Live e' := by
  obtain ⟨haudit, hcalls, hvars, hcrashed⟩ := hsame
  refine ⟨⟨?_, ?_, ?_⟩, ?_⟩
  · rw [haudit]
    exact h.inv.law
  · rw [haudit, hcalls]
    exact h.inv.earlier
  · rw [haudit, hvars, hcrashed]
    exact h.inv.last
  · rw [hcrashed]
    exact h.running

lemma Live.log {e : Enclave} (h : Live e) {event : AuditEvent} (hq : Quiet e.audit event) :
    Live (e.log event) := by
  refine ⟨⟨⟨hq.1, h.inv.law⟩, ?_, ?_⟩, h.running⟩
  · intro call success hmem
    exact h.inv.earlier call success ((mem_quiet hq).mp hmem)
  · intro hrun
    have hlast := h.inv.last hrun
    change LastSet (event :: e.audit) e.vars
    unfold LastSet at hlast ⊢
    rw [lastParse_quiet hq]
    split at hlast
    · trivial
    · exact hlast
    · exact ⟨hlast.1, fun hmem => hlast.2 ((mem_quiet hq).mp hmem)⟩

lemma Writing.log {n : ℕ} {S : RequestVars → Prop} {e : Enclave} (h : Writing n S e)
    {event : AuditEvent} (hq : Quiet e.audit event) : Writing n S (e.log event) := by
  refine ⟨⟨hq.1, h.law⟩, ?_, h.calls, h.vars⟩
  intro call success hmem
  exact h.earlier call success ((mem_quiet hq).mp hmem)

lemma Writing.mono {n : ℕ} {S S' : RequestVars → Prop} {e : Enclave} (h : Writing n S e)
    (hS : ∀ v, S v → S' v) : Writing n S' e :=
  ⟨h.law, h.earlier, h.calls, hS _ h.vars⟩

theorem liveFrame (W : AlgoWrapper) : W.Frame Live RequestInv where
  fails _ he := he.inv
  request _ := AlgoWrapper.guards_of_keymgr (fun _ he => he.inv)
    (fun _ _ he => he.same ⟨rfl, rfl, rfl, rfl⟩) _
  verified _ _ _ _ he := he.log ⟨trivial, fun _ _ h => by cases h⟩
  processed _ _ _ _ _ _ _ he := he.same ⟨rfl, rfl, rfl, rfl⟩
  results _ _ _ he := he.same ⟨rfl, rfl, rfl, rfl⟩

theorem writingFrame (W : AlgoWrapper) (n : ℕ) {S T : RequestVars → Prop} (hST : ∀ v, S v → T v) :
    W.Frame (Writing n S) (Writing n T) where
  fails _ he := he.mono hST
  request _ := AlgoWrapper.guards_of_keymgr (fun _ he => he.mono hST)
    (fun _ _ he => ⟨he.law, he.earlier, he.calls, he.vars⟩) _
  verified _ _ _ _ he := he.log ⟨trivial, fun _ _ h => by cases h⟩
  processed _ _ _ _ _ _ _ he := ⟨he.law, he.earlier, he.calls, he.vars⟩
  results _ _ _ he := ⟨he.law, he.earlier, he.calls, he.vars⟩

section Parse
variable (n : ℕ)

def KeyAsked (v : RequestVars) : Prop := v.mPkey4v.setBy = some n

def KeyStored (v : RequestVars) : Prop := KeyAsked n v ∧ v.mPrivateKey.setBy = some n

def ParamStored (v : RequestVars) : Prop := KeyStored n v ∧ v.mEncryptedParam.setBy = some n

def ResultStored (v : RequestVars) : Prop := ParamStored n v ∧ v.mResult.setBy = some n

variable {n}

lemma Writing.set {S S' : RequestVars → Prop} {e : Enclave} (h : Writing n S e) {v : RequestVars}
    (g : ℕ) (hv : S' v) : Writing n S' { e with vars := v, mCostGas := g } :=
  ⟨h.law, h.earlier, h.calls, hv⟩

lemma Writing.stamp {S : RequestVars → Prop} {e : Enclave} (h : Writing n S e) (value : Bytes) :
    (e.stamp value).setBy = some n := congrArg some h.calls

theorem requestRequesterKey_writing (pkey : Bytes) :
    Contract (Writing n (KeyAsked n)) (W.requestRequesterKey pkey)
      (fun _ => Writing n (KeyStored n)) (fun _ => Writing n (KeyAsked n)) := by
  have F := writingFrame W n (S := KeyAsked n) fun _ hv => hv
  refine .bind (F.request pkey) fun answer => ?_
  cases answer with
  | unset error => exact .of_throw fun _ he => he
  | failed privateKey dianPkey error =>
    refine .bind (Q := fun _ => Writing n (KeyAsked n)) (.of_modify ?_) fun _ =>
      .of_throw fun _ he => he
    intro e he
    exact he.set e.mCostGas he.vars
  | granted privateKey dianPkey =>
    refine .bind (Q := fun _ => Writing n (KeyStored n)) (.of_modify ?_) fun _ =>
      .of_pure fun _ he => he
    intro e he
    exact he.set e.mCostGas ⟨he.vars, he.stamp privateKey⟩

theorem parseEncrypted_writing (inputParam : Bytes) (param : Param) :
    Contract (Writing n (KeyAsked n)) (W.parseEncrypted inputParam param)
      (fun _ => Writing n (ResultStored n)) (fun _ => Writing n (KeyAsked n)) := by
  have hkey : ∀ v, KeyStored n v → KeyAsked n v := fun _ hv => hv.1
  have hparam : ∀ v, ParamStored n v → KeyAsked n v := fun _ hv => hv.1.1
  have F := writingFrame W n hkey
  refine .bind (requestRequesterKey_writing param.pkey) fun privateKey => ?_
  refine .bind (F.decryptParam _ _ _) fun decryptedParam => .bind (F.checkAllowance _) fun _ => ?_
  refine .bind (F.setForwardTargetInfo _) fun _ => ?_
  refine .bind (Q := fun _ => Writing n (ParamStored n)) (.of_modify ?_) fun _ => ?_
  · intro e he
    exact he.set e.mCostGas ⟨he.vars, he.stamp param.paramData⟩
  · refine .bind ((writingFrame W n hparam).doParse ?_ _) fun result => .of_modify ?_
    · intro e p ids he
      exact he.log ⟨trivial, fun _ _ h => by cases h⟩
    · intro e he
      exact he.set 0 ⟨he.vars, he.stamp result⟩

/-- The data hash of a session without sources is never set. -/
theorem setDataHash_writing (hkind : W.dataSession ≠ .noinputDataStream) :
    Contract (Writing n (ResultStored n)) W.setDataHash
      (fun _ e => Writing n (fun v => v.SetBy n) e) (fun _ => Writing n (KeyAsked n)) := by
  have hset (e : Enclave) (he : Writing n (ResultStored n) e) (hash : Bytes) :
      Writing n (fun v => v.SetBy n) (e.setDataHash hash) := by
    obtain ⟨⟨⟨hpkey, hskey⟩, hparam⟩, hresult⟩ := he.vars
    exact he.set e.mCostGas ⟨hpkey, hskey, hparam, hresult, he.stamp hash⟩
  have hfails (e : Enclave) (he : Writing n (ResultStored n) e) : Writing n (KeyAsked n) e :=
    he.mono fun _ hv => hv.1.1.1
  refine .get_bind ?_
  intro e he
  split
  · rename_i hno
    exact absurd hno hkind
  · exact .of_modify fun e' he' => hset e' (he' ▸ he) _
  · split
    · exact .of_throw fun e' he' => hfails e' (he' ▸ he)
    · exact .of_modify fun e' he' => hset e' (he' ▸ he) _
  · split
    · exact .of_throw fun e' he' => hfails e' (he' ▸ he)
    · exact .of_modify fun e' he' => hset e' (he' ▸ he) _

/-- A call that returns success has set all the members; one that returns an error has set the
public key. -/
theorem parseDataItem_writing (hresult : W.result ≠ .localResult)
    (hkind : W.dataSession ≠ .noinputDataStream) (inputParam : Bytes) :
    Contract (Writing n fun _ => True) (W.parseDataItem inputParam)
      (fun _ => Writing n fun v => v.SetBy n)
      (fun stop => Writing n fun v => stop ≠ .crash → KeyAsked n v) := by
  have hasked (stop : Stop) (e : Enclave) (he : Writing n (KeyAsked n) e) :
      Writing n (fun v => stop ≠ .crash → KeyAsked n v) e := he.mono fun _ hv _ => hv
  refine .bind (Q := fun _ => Writing n (ResultStored n)) ?_ fun _ =>
    (setDataHash_writing hkind).weaken (fun _ he => he) (fun _ _ he => he) hasked
  unfold AlgoWrapper.parseDataItemImpl
  split
  · exact .of_throw fun e he => he.mono fun _ _ hstop => absurd rfl hstop
  · rename_i param _
    rw [if_neg hresult]
    refine .bind (Q := fun _ => Writing n (KeyAsked n)) (.of_modify ?_) fun _ =>
      (parseEncrypted_writing inputParam param).weaken (fun _ he => he) (fun _ _ he => he) hasked
    intro e he
    exact he.set e.mCostGas (he.stamp param.pkey)

end Parse

section Machine
variable {n : ℕ} {e : Enclave}

lemma Writing.succeeds (inputParam : Bytes) (h : Writing n (fun v => v.SetBy n) e) :
    RequestInv (AlgoWrapper.returned (.parseDataItem inputParam) true e) := by
  obtain ⟨law, earlier, rfl, hset⟩ := h
  refine ⟨⟨trivial, law⟩, ?_, fun _ => hset⟩
  intro call success hmem
  obtain heq | hmem := List.mem_cons.mp hmem
  · cases heq
    exact Nat.lt_succ_self _
  · exact Nat.lt_succ_of_lt (earlier call success hmem)

lemma Writing.refused (inputParam : Bytes) (h : Writing n (KeyAsked n) e) :
    RequestInv (AlgoWrapper.returned (.parseDataItem inputParam) false e) := by
  obtain ⟨law, earlier, rfl, hasked⟩ := h
  refine ⟨⟨trivial, law⟩, ?_, fun _ => ⟨hasked, ?_⟩⟩
  · intro call success hmem
    obtain heq | hmem := List.mem_cons.mp hmem
    · cases heq
      exact Nat.lt_succ_self _
    · exact Nat.lt_succ_of_lt (earlier call success hmem)
  · intro hmem
    obtain heq | hmem := List.mem_cons.mp hmem
    · cases heq
    · exact Nat.lt_irrefl _ (earlier _ _ hmem)

lemma Writing.crashes {S : RequestVars → Prop} (h : Writing n S e) :
    RequestInv { e with crashed := true } := by
  obtain ⟨law, earlier, rfl, -⟩ := h
  exact ⟨law, earlier, fun hrun => absurd rfl hrun⟩

theorem parse_step (hresult : W.result ≠ .localResult)
    (hkind : W.dataSession ≠ .noinputDataStream) (inputParam : Bytes) (h : RequestInv e) :
    RequestInv (W.step e (.parseDataItem inputParam)) := by
  have hbody := parseDataItem_writing (n := e.calls) hresult hkind inputParam
  refine AlgoWrapper.step_of_contract (hbody.weaken (fun _ he => he)
    (fun _ _ he => he.succeeds inputParam) ?_) (fun _ => h)
    (fun _ => ⟨h.law, h.earlier, rfl, trivial⟩)
  intro stop e' he
  cases stop with
  | status error => exact (he.mono fun _ hv => hv (by simp)).refused inputParam
  | crash => exact he.crashes

/-- The ecalls that do not parse leave the members alone. -/
theorem quiet_guards {ecall : Ecall} (hquiet : ∀ inputParam, ecall ≠ .parseDataItem inputParam) :
    Guards Live RequestInv (W.body ecall) := by
  have F := liveFrame W
  have hkeymgr (e : Enclave) (k : Keymgr) (he : Live e) : Live { e with keymgr := k } :=
    he.same ⟨rfl, rfl, rfl, rfl⟩
  have hinit := AlgoWrapper.guards_of_keymgr F.fails hkeymgr (initKeymgrSession W.outside)
  cases ecall with
  | initDataSource info =>
    refine F.initDataSource ?_ hinit info
    intro e ps ds us he
    exact he.same ⟨rfl, rfl, rfl, rfl⟩
  | beginParseDataItem =>
    refine F.beginParseDataItem hinit ?_ ?_
    · intro e he
      exact he.same ⟨rfl, rfl, rfl, rfl⟩
    · intro e he
      exact he.same ⟨rfl, rfl, rfl, rfl⟩
  | parseDataItem inputParam => exact absurd rfl (hquiet inputParam)
  | endParseDataItem =>
    refine .bind (AlgoWrapper.guards_checkActualDataHash F.fails) fun _ => ?_
    refine .bind (AlgoWrapper.guards_generateResult F.fails F.results) fun _ => ?_
    refine .bind (.of_modify ?_) fun _ => AlgoWrapper.guards_of_keymgr F.fails hkeymgr _
    intro e he
    exact he.log ⟨oneRequest_iff (he.inv.last he.running), fun _ _ h => by cases h⟩

theorem quiet_step {ecall : Ecall} (hquiet : ∀ inputParam, ecall ≠ .parseDataItem inputParam)
    (h : RequestInv e) : RequestInv (W.step e ecall) := by
  refine AlgoWrapper.step_of_body ((quiet_guards hquiet).ends fun _ he => he.inv) ?_ ?_ h
    (fun hrun => ⟨h, hrun⟩)
  · intro b e' he
    have hreturned : AlgoWrapper.returned ecall b e' = { e' with calls := e'.calls + 1 } := by
      cases ecall with
      | parseDataItem inputParam => exact absurd rfl (hquiet inputParam)
      | initDataSource info => rfl
      | beginParseDataItem => rfl
      | endParseDataItem => rfl
    rw [hreturned]
    refine ⟨he.law, ?_, he.last⟩
    intro call success hmem
    exact Nat.lt_succ_of_lt (he.earlier call success hmem)
  · intro e' he
    exact ⟨he.law, he.earlier, fun hrun => absurd rfl hrun⟩

theorem requestInv_step (hresult : W.result ≠ .localResult)
    (hkind : W.dataSession ≠ .noinputDataStream) (e : Enclave) (ecall : Ecall)
    (h : RequestInv e) : RequestInv (W.step e ecall) := by
  cases ecall with
  | parseDataItem inputParam => exact parse_step hresult hkind inputParam h
  | initDataSource info => exact quiet_step (fun _ heq => by cases heq) h
  | beginParseDataItem => exact quiet_step (fun _ heq => by cases heq) h
  | endParseDataItem => exact quiet_step (fun _ heq => by cases heq) h

/-- Whenever a result has been generated, all that went into it was set by one successful call
of `parse_data_item` exactly when the latest call of `parse_data_item` before it returned
success. -/
theorem result_belongs_to_last_request (hresult : W.result ≠ .localResult)
    (hkind : W.dataSession ≠ .noinputDataStream) (ecalls : List Ecall)
    (newer older : List AuditEvent) (v : RequestVars)
    (hsplit : (run W.step W.start ecalls).audit = newer ++ .generated v :: older) :
    OneRequest older v ↔ ParsedLast older := by
  have hstart : RequestInv W.start := by
    refine ⟨trivial, ?_, fun _ => trivial⟩
    intro call success hmem
    cases hmem
  have hlaw := (run_always (requestInv_step hresult hkind) ecalls hstart).law
  rw [hsplit] at hlaw
  exact hlaw.at_event

end Machine

section Demo

def demoVars : RequestVars where
  mPkey4v := ⟨demoPkey 7, some 2⟩
  mPrivateKey := ⟨demoSkey 7, some 2⟩
  mEncryptedParam := ⟨(demoParam 7 7 5).paramData, some 2⟩
  mResult := ⟨[7], some 2⟩
  mDataHash := ⟨demoDataHash, some 2⟩

theorem result_belongs_to_only_request :
    OneRequest (run demoWrapper.step demoWrapper.start demoEcalls).audit.tail demoVars := by
  have hsplit : (run demoWrapper.step demoWrapper.start demoEcalls).audit =
      [] ++ .generated demoVars ::
        (run demoWrapper.step demoWrapper.start demoEcalls).audit.tail := by decide +kernel
  have hlast : lastParse (run demoWrapper.step demoWrapper.start demoEcalls).audit.tail =
      some (2, true) := by decide +kernel
  exact (result_belongs_to_last_request (by decide) (by decide) demoEcalls _ _ _ hsplit).mpr
    ⟨2, hlast⟩

/-- A request of `7` that succeeds, then one of `4` whose parameter cannot be decrypted. -/
def interleavedRequests : List Ecall :=
  [.initDataSource [5], .beginParseDataItem, .parseDataItem (demoInput 7 7 5),
    .parseDataItem (demoInput 4 7 5), .endParseDataItem]

/-- The result of `7` is encrypted to `4` and signed with the key of `4`. -/
theorem result_goes_to_other_requester :
    ∃ newer older v,
      (run demoWrapper.step demoWrapper.start interleavedRequests).audit =
        newer ++ .generated v :: older ∧
      v.mPkey4v.value = demoPkey 4 ∧ v.mPrivateKey.value = demoSkey 4 ∧ v.mResult.value = [7] ∧
      ¬ OneRequest older v := by
  refine ⟨[], (run demoWrapper.step demoWrapper.start interleavedRequests).audit.tail,
    { demoVars with mPkey4v := ⟨demoPkey 4, some 3⟩, mPrivateKey := ⟨demoSkey 4, some 3⟩ },
    by decide +kernel, rfl, rfl, rfl, ?_⟩
  rintro ⟨call, -, hpkey, -, hparam, -⟩
  cases hpkey
  cases hparam

end Demo
end PrivacyComputing.Analyzer
