import PrivacyComputing.AnalyzerForward
import PrivacyComputing.AnalyzerMulti

/-! `check_allowance` with the model checker, and what further entries in the list of allowances
do to it. An entry that is of no use is skipped, unless the key manager has no key for it. -/
namespace PrivacyComputing.Analyzer
open Calls

variable {W : AlgoWrapper}

/-- `check_model_allowance` with the members of `model_var`, its specialisation for `void`, and
`ignore_model_allowance`. -/
inductive ModelAllowancePolicy
  | checkModelAllowance (mModelPkey mModelHash : Bytes)
  | checkNoModel
  | ignoreModelAllowance
  deriving DecidableEq, Repr

def checkAllowanceM (policy : ModelAllowancePolicy) (checkedPkey : List Bytes) : EnclaveM Unit :=
  match policy with
  | .checkModelAllowance mModelPkey mModelHash =>
    if checkedPkey.contains (mModelPkey ++ mModelHash) then pure ()
    else failWith .modelAllowanceMiss
  | .checkNoModel => pure ()
  | .ignoreModelAllowance => pure ()

/-- `check_allowance_interface::check_allowance` with both of its policies. -/
def AlgoWrapper.checkAllowances (W : AlgoWrapper) (policy : ModelAllowancePolicy) (param : Param) :
    EnclaveM Unit := do
  let checkedPkey ← W.checkEntries (W.crypto.hash256 param.paramData) param.allowances
  checkAllowanceM policy checkedPkey
  W.checkAllowanceD checkedPkey

def AlgoWrapper.allows (W : AlgoWrapper) (policy : ModelAllowancePolicy) (e : Enclave)
    (param : Param) : Bool :=
  match W.checkAllowances policy param e with
  | .ok _ _ => true
  | .error _ _ => false

/-- Without a model this is the check of the other modules. -/
lemma checkAllowances_noModel (param : Param) :
    W.checkAllowances .checkNoModel param = W.checkAllowance param := by
  unfold AlgoWrapper.checkAllowances AlgoWrapper.checkAllowance checkAllowanceM
  simp

section Entries
variable {ready : Keymgr → Prop} {keys : Bytes → KeyAnswer}

/-- As long as the session is `ready`, the key manager gives the answer that its table has for the
key. -/
def Answered (W : AlgoWrapper) (ready : Keymgr → Prop) (keys : Bytes → KeyAnswer) (pkey : Bytes) :
    Prop :=
  ∀ k, ready k → ∃ k', requestPrivateKeyForPublicKey W.crypto W.gcm W.outside
    W.packages.requestSkeyFromPkey pkey k = .ok (keys pkey) k' ∧ ready k'

/-- What an entry adds to `checked_pkey`, if the key manager has its key. -/
def AlgoWrapper.entryKeys (W : AlgoWrapper) (keys : Bytes → KeyAnswer)
    (paramHash enclaveHash : Bytes) (entry : Allowance) : Option (List Bytes) :=
  if entry.pkey.length = 0 then some []
  else
    match keys entry.pkey with
    | .granted privateKey dianPkey =>
      if entry.signature.length = 0 then some []
      else
        match W.allowanceCheck privateKey
            (paramHash ++ enclaveHash ++ dianPkey ++ entry.dataHash) entry.signature with
        | .error _ => some []
        | .ok () => some [entry.pkey ++ entry.dataHash]
    | _ => none

/-- An entry without a key, or with one that the key manager gives out. -/
def Obtainable (keys : Bytes → KeyAnswer) (entry : Allowance) : Prop :=
  entry.pkey.length ≠ 0 → ∃ privateKey dianPkey, keys entry.pkey = .granted privateKey dianPkey

lemma entryKeys_isSome_iff (paramHash enclaveHash : Bytes) (entry : Allowance) :
    (W.entryKeys keys paramHash enclaveHash entry).isSome = true ↔ Obtainable keys entry := by
  unfold AlgoWrapper.entryKeys Obtainable
  by_cases hpkey : entry.pkey.length = 0
  · simp [hpkey]
  · rw [if_neg hpkey]
    cases keys entry.pkey with
    | unset error => simp [hpkey]
    | failed privateKey dianPkey error => simp [hpkey]
    | granted privateKey dianPkey =>
      refine iff_of_true ?_ fun _ => ⟨privateKey, dianPkey, rfl⟩
      dsimp only
      split
      · rfl
      · split <;> rfl

/-- The parts of the enclave that the check of the entries leaves alone. -/
structure SameSources (e e' : Enclave) : Prop where
  hash : e'.mEnclaveHash = e.mEnclaveHash
  used : e'.mDsUsePkey = e.mDsUsePkey
  sources : e'.mDatasource = e.mDatasource

lemma SameSources.trans {e e' e'' : Enclave} (h : SameSources e e') (h' : SameSources e' e'') :
    SameSources e e'' :=
  ⟨h'.hash.trans h.hash, h'.used.trans h.used, h'.sources.trans h.sources⟩

lemma requestKey_answered {pkey : Bytes} (h : Answered W ready keys pkey) {e : Enclave}
    (he : ready e.keymgr) : ∃ k', ready k' ∧
      W.requestKey pkey e = match keys pkey with
        | .granted privateKey dianPkey => .ok (privateKey, dianPkey) { e with keymgr := k' }
        | .unset error | .failed _ _ error => .error (.status error) { e with keymgr := k' } := by
  obtain ⟨k', hrun, hk'⟩ := h e.keymgr he
  have hrequest : W.requestPrivateKey pkey e = .ok (keys pkey) { e with keymgr := k' } := by
    simp only [AlgoWrapper.requestPrivateKey, onKeymgr, zoom, hrun]
  refine ⟨k', hk', ?_⟩
  rw [AlgoWrapper.requestKey, bind_ok hrequest]
  cases keys pkey <;> rfl

theorem checkEntry_answered (paramHash : Bytes) (entry : Allowance)
    (h : entry.pkey.length ≠ 0 → Answered W ready keys entry.pkey) {e : Enclave}
    (he : ready e.keymgr) :
    match W.entryKeys keys paramHash e.mEnclaveHash entry with
    | some checked => ∃ e', W.checkEntry paramHash entry e = .ok checked e' ∧ ready e'.keymgr ∧
        SameSources e e'
    | none => ∃ stop e', W.checkEntry paramHash entry e = .error stop e' := by
  unfold AlgoWrapper.entryKeys AlgoWrapper.checkEntry
  by_cases hpkey : entry.pkey.length = 0
  · rw [if_pos hpkey, if_pos hpkey]
    exact ⟨e, rfl, he, rfl, rfl, rfl⟩
  · rw [if_neg hpkey, if_neg hpkey]
    obtain ⟨k', hk', hrequest⟩ := requestKey_answered (h hpkey) he
    cases hkey : keys entry.pkey with
    | unset error =>
      rw [hkey] at hrequest
      exact ⟨_, _, bind_error hrequest⟩
    | failed privateKey dianPkey error =>
      rw [hkey] at hrequest
      exact ⟨_, _, bind_error hrequest⟩
    | granted privateKey dianPkey =>
      rw [hkey] at hrequest
      rw [bind_ok hrequest]
      dsimp only
      by_cases hsig : entry.signature.length = 0
      · rw [if_pos hsig, if_pos hsig]
        exact ⟨_, rfl, hk', rfl, rfl, rfl⟩
      · rw [if_neg hsig, if_neg hsig, AlgoWrapper.verifyEntry, get_bind]
        cases W.allowanceCheck privateKey
            (paramHash ++ e.mEnclaveHash ++ dianPkey ++ entry.dataHash) entry.signature with
        | error error => exact ⟨_, rfl, hk', rfl, rfl, rfl⟩
        | ok u => exact ⟨_, rfl, hk', rfl, rfl, rfl⟩

/-- What a list of entries adds. -/
def AlgoWrapper.listKeys (W : AlgoWrapper) (keys : Bytes → KeyAnswer)
    (paramHash enclaveHash : Bytes) : List Allowance → Option (List Bytes)
  | [] => some []
  | entry :: entries =>
    match W.entryKeys keys paramHash enclaveHash entry,
        W.listKeys keys paramHash enclaveHash entries with
    | some checked, some others => some (checked ++ others)
    | _, _ => none

theorem listKeys_isSome_iff (paramHash enclaveHash : Bytes) (entries : List Allowance) :
    (W.listKeys keys paramHash enclaveHash entries).isSome = true ↔
      ∀ entry ∈ entries, Obtainable keys entry := by
  induction entries with
  | nil => simp [AlgoWrapper.listKeys]
  | cons entry entries ih =>
    have hentry : (W.entryKeys keys paramHash enclaveHash entry).isSome = true ↔
      Obtainable keys entry := entryKeys_isSome_iff paramHash enclaveHash entry
    simp only [List.mem_cons, forall_eq_or_imp, ← ih, ← hentry, AlgoWrapper.listKeys]
    cases W.entryKeys keys paramHash enclaveHash entry <;>
      cases W.listKeys keys paramHash enclaveHash entries <;> simp

theorem mem_listKeys_iff {paramHash enclaveHash : Bytes} {entries : List Allowance}
    {checked : List Bytes} (h : W.listKeys keys paramHash enclaveHash entries = some checked)
    (x : Bytes) : x ∈ checked ↔ ∃ entry ∈ entries, ∃ added,
      W.entryKeys keys paramHash enclaveHash entry = some added ∧ x ∈ added := by
  induction entries generalizing checked with
  | nil =>
    cases h
    simp
  | cons entry entries ih =>
    unfold AlgoWrapper.listKeys at h
    split at h
    · rename_i added others hadded hothers
      cases h
      simp [ih hothers, hadded]
    · cases h

/-- More entries, more keys. -/
lemma listKeys_subset {paramHash enclaveHash : Bytes} {entries entries' : List Allowance}
    {checked checked' : List Bytes} (hsub : entries ⊆ entries')
    (h : W.listKeys keys paramHash enclaveHash entries = some checked)
    (h' : W.listKeys keys paramHash enclaveHash entries' = some checked') : checked ⊆ checked' := by
  intro x hx
  obtain ⟨entry, hentry, added, hadded, hmem⟩ := (mem_listKeys_iff h x).mp hx
  exact (mem_listKeys_iff h' x).mpr ⟨entry, hsub hentry, added, hadded, hmem⟩

theorem checkEntries_answered (paramHash : Bytes) (entries : List Allowance)
    (h : ∀ entry ∈ entries, entry.pkey.length ≠ 0 → Answered W ready keys entry.pkey)
    {e : Enclave} (he : ready e.keymgr) :
    match W.listKeys keys paramHash e.mEnclaveHash entries with
    | some checked => ∃ e', W.checkEntries paramHash entries e = .ok checked e' ∧ SameSources e e'
    | none => ∃ stop e', W.checkEntries paramHash entries e = .error stop e' := by
  induction entries generalizing e with
  | nil => exact ⟨e, rfl, rfl, rfl, rfl⟩
  | cons entry entries ih =>
    have hfirst := checkEntry_answered paramHash entry (h entry List.mem_cons_self) he
    unfold AlgoWrapper.listKeys AlgoWrapper.checkEntries
    cases hkeys : W.entryKeys keys paramHash e.mEnclaveHash entry with
    | none =>
      rw [hkeys] at hfirst
      obtain ⟨stop, e', hstop⟩ := hfirst
      exact ⟨stop, e', bind_error hstop⟩
    | some checked =>
      rw [hkeys] at hfirst
      obtain ⟨e', hrun, hready, hsame⟩ := hfirst
      have hrest := ih (fun a ha => h a (List.mem_cons_of_mem _ ha)) hready
      rw [hsame.hash] at hrest
      rw [bind_ok hrun]
      cases hlist : W.listKeys keys paramHash e.mEnclaveHash entries with
      | none =>
        rw [hlist] at hrest
        obtain ⟨stop, e'', hstop⟩ := hrest
        exact ⟨stop, e'', bind_error hstop⟩
      | some others =>
        rw [hlist] at hrest
        obtain ⟨e'', hrun', hsame'⟩ := hrest
        exact ⟨e'', by rw [bind_ok hrun']; rfl, hsame.trans hsame'⟩

end Entries

section Check

def ModelSatisfied (policy : ModelAllowancePolicy) (checked : List Bytes) : Prop :=
  ∀ mModelPkey mModelHash, policy = .checkModelAllowance mModelPkey mModelHash →
    mModelPkey ++ mModelHash ∈ checked

def DataSatisfied (W : AlgoWrapper) (e : Enclave) (checked : List Bytes) : Prop :=
  W.dataAllowancePolicy = .checkDataAllowance →
    W.dataSession = .sealedDataStream ∨ W.dataSession = .multiDataStream →
    ∀ pkey ∈ e.mDsUsePkey, pkey ∈ checked

lemma checkAllowanceM_spec (policy : ModelAllowancePolicy) (checked : List Bytes) (e : Enclave) :
    (ModelSatisfied policy checked → checkAllowanceM policy checked e = .ok () e) ∧
      (¬ModelSatisfied policy checked →
        ∃ stop, checkAllowanceM policy checked e = .error stop e) := by
  unfold ModelSatisfied checkAllowanceM
  cases policy with
  | checkModelAllowance pkey hash =>
    by_cases hmem : pkey ++ hash ∈ checked
    · simp [hmem]
    · have hnot : checked.contains (pkey ++ hash) ≠ true := by simpa using hmem
      simp only [if_neg hnot]
      exact ⟨fun h => absurd (h pkey hash rfl) hmem, fun _ => ⟨_, rfl⟩⟩
  | checkNoModel => simp
  | ignoreModelAllowance => simp

lemma checkAllowanceD_spec (checked : List Bytes) (e : Enclave) :
    (DataSatisfied W e checked → W.checkAllowanceD checked e = .ok () e) ∧
      (¬DataSatisfied W e checked → ∃ stop, W.checkAllowanceD checked e = .error stop e) := by
  unfold DataSatisfied AlgoWrapper.checkAllowanceD
  rw [get_bind]
  cases W.dataAllowancePolicy with
  | ignoreDataAllowance => simp
  | checkDataAllowance =>
    by_cases hall : ∀ pkey ∈ e.mDsUsePkey, pkey ∈ checked
    · refine ⟨fun _ => ?_, fun h => absurd (fun _ _ => hall) h⟩
      cases W.dataSession <;> simp only [if_pos hall, pure_apply]
    · cases W.dataSession with
      | sealedDataStream =>
        simp only [if_neg hall]
        refine ⟨fun h => absurd (h trivial (Or.inl trivial)) hall, fun _ => ?_⟩
        split_ifs
        · exact ⟨_, rfl⟩
        · exact ⟨_, rfl⟩
      | multiDataStream =>
        simp only [if_neg hall]
        exact ⟨fun h => absurd (h trivial (Or.inr trivial)) hall, fun _ => ⟨_, rfl⟩⟩
      | rawDataStream => simp
      | noinputDataStream => simp

variable {ready : Keymgr → Prop} {keys : Bytes → KeyAnswer}

theorem allows_iff (policy : ModelAllowancePolicy) {e : Enclave} (he : ready e.keymgr)
    (param : Param) (h : ∀ entry ∈ param.allowances, entry.pkey.length ≠ 0 →
      Answered W ready keys entry.pkey) :
    W.allows policy e param = true ↔
      ∃ checked, W.listKeys keys (W.crypto.hash256 param.paramData) e.mEnclaveHash
        param.allowances = some checked ∧ ModelSatisfied policy checked ∧
        DataSatisfied W e checked := by
  have hentries := checkEntries_answered (W.crypto.hash256 param.paramData) param.allowances h he
  unfold AlgoWrapper.allows AlgoWrapper.checkAllowances
  cases hkeys : W.listKeys keys (W.crypto.hash256 param.paramData) e.mEnclaveHash
      param.allowances with
  | none =>
    rw [hkeys] at hentries
    obtain ⟨stop, e', hstop⟩ := hentries
    simp [bind_error hstop]
  | some checked =>
    rw [hkeys] at hentries
    obtain ⟨e', hrun, hsame⟩ := hentries
    have hdata : DataSatisfied W e' checked ↔ DataSatisfied W e checked := by
      rw [DataSatisfied, DataSatisfied, hsame.used]
    rw [bind_ok hrun]
    by_cases hm : ModelSatisfied policy checked
    · rw [bind_ok ((checkAllowanceM_spec policy checked e').1 hm)]
      by_cases hd : DataSatisfied W e' checked
      · simp [(checkAllowanceD_spec checked e').1 hd, hm, hdata.mp hd]
      · obtain ⟨stop, hstop⟩ := (checkAllowanceD_spec (W := W) checked e').2 hd
        rw [hdata] at hd
        simp [hstop, hm, hd]
    · obtain ⟨stop, hstop⟩ := (checkAllowanceM_spec policy checked e').2 hm
      rw [bind_error hstop]
      simp [hm]

/-- An accepted list stays accepted when entries are put into it exactly when the key manager has
the keys of all of them. -/
theorem further_allowances_accepted_iff (policy : ModelAllowancePolicy) {e : Enclave}
    (he : ready e.keymgr) (param : Param) {allowances : List Allowance}
    (hinserted : param.allowances.Sublist allowances)
    (hanswered : ∀ entry ∈ allowances, entry.pkey.length ≠ 0 → Answered W ready keys entry.pkey)
    (haccepted : W.allows policy e param = true) :
    W.allows policy e { param with allowances := allowances } = true ↔
      ∀ entry ∈ allowances, Obtainable keys entry := by
  have hsub := hinserted.subset
  obtain ⟨checked, hchecked, hm, hd⟩ :=
    (allows_iff policy he param fun entry hentry => hanswered entry (hsub hentry)).mp haccepted
  rw [allows_iff policy he _ hanswered, ← listKeys_isSome_iff (W := W)
    (W.crypto.hash256 param.paramData) e.mEnclaveHash, Option.isSome_iff_exists]
  constructor
  · rintro ⟨checked', hchecked', -⟩
    exact ⟨checked', hchecked'⟩
  · rintro ⟨checked', hchecked'⟩
    have hmore := listKeys_subset hsub hchecked hchecked'
    refine ⟨checked', hchecked', ?_, ?_⟩
    · intro mModelPkey mModelHash hpolicy
      exact hmore (hm mModelPkey mModelHash hpolicy)
    · intro hpolicy hkind pkey hpkey
      exact hmore (hd hpolicy hkind pkey hpkey)

end Check

section Demo
open Channel

/-- The parser in session with the key manager, on the data of the owner `5`. -/
def parserEnclave : Enclave :=
  Runs.run multiWrapper.step multiWrapper.start [.initDataSource [5], .beginParseDataItem]

def parserParam : Param := { demoParam 7 7 5 with paramData := [7] }

def demoKeys (pkey : Bytes) : KeyAnswer := .granted (pkey.take privateKeySize) (demoPkey 6)

lemma demo_answered (a : UInt8) : Answered multiWrapper demoReady demoKeys (demoPkey a) := by
  intro k hk
  have hkeys : demoKeys (demoPkey a) = .granted (demoSkey a) (demoPkey 6) := by
    simp [demoKeys, demoPkey, demoSkey, publicKeySize, privateKeySize]
  rw [hkeys]
  exact demo_granted a hk

/-- Entries of other owners: without a key, without a signature, and with one for other data. -/
def uselessEntries : List Allowance :=
  [⟨[1], [], demoDataHash⟩, ⟨[], demoPkey 4, demoDataHash⟩, ⟨[1], demoPkey 9, []⟩]

theorem useless_allowances_are_ignored :
    multiWrapper.allows .checkNoModel parserEnclave { parserParam with
      allowances := uselessEntries ++ parserParam.allowances ++ uselessEntries } = true := by
  have hready : demoReady parserEnclave.keymgr := ⟨1, by decide +kernel⟩
  have hnamed : ∀ entry ∈ uselessEntries ++ parserParam.allowances ++ uselessEntries,
      entry.pkey.length = 0 ∨ ∃ a, entry.pkey = demoPkey a := by
    have huseless : ∀ entry ∈ uselessEntries,
        entry.pkey.length = 0 ∨ ∃ a, entry.pkey = demoPkey a := by
      simp only [uselessEntries, List.forall_mem_cons]
      exact ⟨Or.inl rfl, Or.inr ⟨4, rfl⟩, Or.inr ⟨9, rfl⟩, by simp⟩
    intro entry hentry
    rcases List.mem_append.mp hentry with hentry | hentry
    · rcases List.mem_append.mp hentry with hentry | hentry
      · exact huseless entry hentry
      · rw [List.mem_singleton.mp hentry]
        exact Or.inr ⟨5, rfl⟩
    · exact huseless entry hentry
  have hinserted : parserParam.allowances.Sublist
      (uselessEntries ++ parserParam.allowances ++ uselessEntries) :=
    (List.sublist_append_right _ _).trans (List.sublist_append_left _ _)
  have hanswered : ∀ entry ∈ uselessEntries ++ parserParam.allowances ++ uselessEntries,
      entry.pkey.length ≠ 0 → Answered multiWrapper demoReady demoKeys entry.pkey := by
    intro entry hentry hne
    rcases hnamed entry hentry with hnil | ⟨a, ha⟩
    · exact absurd hnil hne
    · rw [ha]
      exact demo_answered a
  refine (further_allowances_accepted_iff .checkNoModel hready parserParam hinserted hanswered
    ?_).mpr ?_
  · decide +kernel
  · intro entry _ _
    exact ⟨_, _, rfl⟩

/-- One entry with a key that the key manager does not have. -/
theorem unknown_key_spoils_allowances :
    multiWrapper.allows .checkNoModel parserEnclave parserParam = true ∧
      multiWrapper.allows .checkNoModel parserEnclave { parserParam with
        allowances := parserParam.allowances ++ [⟨[], demoSkey 1 ++ demoSkey 2, []⟩] } = false :=
  ⟨by decide +kernel, by decide +kernel⟩

end Demo
end PrivacyComputing.Analyzer
