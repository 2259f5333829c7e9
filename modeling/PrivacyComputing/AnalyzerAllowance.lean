import PrivacyComputing.AnalyzerFrame

/-! Whose permission a parser has for the data it is run on: the allowance check of sealed data
sources, and what it is worth for a single one. -/
namespace PrivacyComputing.Analyzer
open Calls DataProvider Runs

variable {W : AlgoWrapper}

/-- The message of an allowance for this parameter in this enclave. -/
def AlgoWrapper.allowanceMsg (W : AlgoWrapper) (paramHash dianPkey dataHash : Bytes) : Bytes :=
  paramHash ++ W.enclaveHash ++ dianPkey ++ dataHash

/-- The ecall has verified a signature of the owner over the message of such an allowance. -/
def Signed (W : AlgoWrapper) (audit : List AuditEvent) (call : ℕ)
    (paramHash pkey dataHash : Bytes) : Prop :=
  ∃ dianPkey signature, dianPkey.length = publicKeySize ∧
    .verified call pkey (W.allowanceMsg paramHash dianPkey dataHash) signature ∈ audit ∧
    W.crypto.verifySignature (W.allowanceMsg paramHash dianPkey dataHash) signature pkey = .ok ()

/-- The owner of every sealed source that the parser was created on has signed. -/
def Authorised (W : AlgoWrapper) (older : List AuditEvent) : AuditEvent → Prop
  | .doParse call param sources => ∀ source ∈ sources, ∀ pkey, source.owner = some pkey →
      Signed W older call (W.crypto.hash256 param) pkey source.dataHash
  | _ => True

def DataUsePolicy (W : AlgoWrapper) (e : Enclave) : Prop :=
  ∀ newer older event, e.audit = newer ++ event :: older → Authorised W older event

/-- The parser was created on data that is still the data source: of the same owner, with the
same hash. -/
def SourceKept (e : Enclave) : Prop :=
  ∀ ids ∈ e.mParser, ∀ source ∈ e.sources ids, source ∈ e.sources e.mDatasource

instance (e : Enclave) : Decidable (SourceKept e) :=
  inferInstanceAs (Decidable (∀ ids ∈ e.mParser, _))

def Ecall.isParse : Ecall → Bool
  | .parseDataItem _ => true
  | _ => false

structure SourceInv (W : AlgoWrapper) (e : Enclave) : Prop where
  law : Justified (Authorised W) e.audit
  hash : ∀ ids ∈ e.mParser, e.mEnclaveHash = W.enclaveHash
  used : ∀ source ∈ e.sources e.mDatasource, ∀ pkey, source.owner = some pkey →
    pkey.length = publicKeySize ∧ pkey ++ source.dataHash ∈ e.mDsUsePkey

/-- An entry of `checked_pkey`: some split of it has been signed. The enclave hash is the one
that the check has used. -/
def Checked (W : AlgoWrapper) (e : Enclave) (paramHash entry : Bytes) : Prop :=
  ∃ pkey dataHash, pkey.length = publicKeySize ∧ entry = pkey ++ dataHash ∧
    (e.mEnclaveHash = W.enclaveHash → Signed W e.audit e.calls paramHash pkey dataHash)

lemma Signed.mono {audit : List AuditEvent} {call : ℕ} {paramHash pkey dataHash : Bytes}
    (h : Signed W audit call paramHash pkey dataHash) (event : AuditEvent) :
    Signed W (event :: audit) call paramHash pkey dataHash := by
  obtain ⟨dianPkey, signature, hdian, hmem, hsig⟩ := h
  exact ⟨dianPkey, signature, hdian, List.mem_cons_of_mem _ hmem, hsig⟩

lemma sources_putProvider {e : Enclave} {id : ℕ} {p p' : Provider} (hp : e.providers[id]? = some p)
    (hsource : providerSource p' = providerSource p) (n : ℕ) (ids : List ℕ) :
    (e.putProvider id p' n).sources ids = e.sources ids := by
  unfold Enclave.sources Enclave.putProvider
  rw [List.map_filterMap, List.map_filterMap]
  congr 1
  funext i
  rw [List.getElem?_set]
  split_ifs with hid hlt
  · subst hid
    rw [hp]
    simp [hsource]
  · subst hid
    rw [List.getElem?_eq_none (by omega)] at hp
    cases hp
  · rfl

/-- Everything but a start of the parser may be added to the history. -/
lemma SourceInv.log {e : Enclave} (h : SourceInv W e) {event : AuditEvent}
    (hevent : Authorised W e.audit event) : SourceInv W (e.log event) :=
  ⟨⟨hevent, h.law⟩, h.hash, h.used⟩

lemma SourceInv.putProvider {e : Enclave} (h : SourceInv W e) {id : ℕ} {p p' : Provider}
    (hp : e.providers[id]? = some p) (hsource : providerSource p' = providerSource p) (n : ℕ) :
    SourceInv W (e.putProvider id p' n) := by
  refine ⟨h.law, h.hash, ?_⟩
  intro source hs
  rw [sources_putProvider hp hsource] at hs
  exact h.used source hs

lemma SourceKept.putProvider {e : Enclave} (h : SourceKept e) {id : ℕ} {p p' : Provider}
    (hp : e.providers[id]? = some p) (hsource : providerSource p' = providerSource p) (n : ℕ) :
    SourceKept (e.putProvider id p' n) := by
  intro ids hids source hs
  rw [sources_putProvider hp hsource] at hs ⊢
  exact h ids hids source hs

/-- What holds while `parse_data_item` runs, with the entries that have been checked. -/
structure Parsing (W : AlgoWrapper) (paramHash : Bytes) (checked : List Bytes) (e : Enclave) :
    Prop where
  inv : SourceInv W e
  kept : SourceKept e
  checked : ∀ entry ∈ checked, Checked W e paramHash entry

lemma Checked.log {e : Enclave} {paramHash entry : Bytes} (h : Checked W e paramHash entry)
    (event : AuditEvent) : Checked W (e.log event) paramHash entry := by
  obtain ⟨pkey, dataHash, hlen, hentry, hsigned⟩ := h
  exact ⟨pkey, dataHash, hlen, hentry, fun hhash => (hsigned hhash).mono event⟩

lemma Parsing.log {e : Enclave} {paramHash : Bytes} {checked : List Bytes}
    (h : Parsing W paramHash checked e) {event : AuditEvent}
    (hevent : Authorised W e.audit event) : Parsing W paramHash checked (e.log event) :=
  ⟨h.inv.log hevent, h.kept, fun entry hentry => (h.checked entry hentry).log event⟩

/-- The members of the request do not matter here. -/
lemma Parsing.vars {e : Enclave} {paramHash : Bytes} {checked : List Bytes}
    (h : Parsing W paramHash checked e) (v : RequestVars) (gas : ℕ) :
    Parsing W paramHash checked { e with vars := v, mCostGas := gas } :=
  ⟨⟨h.inv.law, h.inv.hash, h.inv.used⟩, h.kept, h.checked⟩

theorem parsingFrame (W : AlgoWrapper) (paramHash : Bytes) (checked : List Bytes) :
    W.Frame (Parsing W paramHash checked) (SourceInv W) where
  fails _ he := he.inv
  request _ := AlgoWrapper.guards_of_keymgr (fun _ he => he.inv)
    (fun _ _ he => ⟨⟨he.inv.law, he.inv.hash, he.inv.used⟩, he.kept, he.checked⟩) _
  verified _ _ _ _ he := he.log trivial
  processed _ _ _ _ n hp hsource he :=
    ⟨he.inv.putProvider hp hsource n, he.kept.putProvider hp hsource n, he.checked⟩
  results _ _ _ he := ⟨⟨he.inv.law, he.inv.hash, he.inv.used⟩, he.kept, he.checked⟩

section Check
variable (paramHash : Bytes)

theorem verifyEntry_parsing (checked : List Bytes) (entry : Allowance) (keys : Bytes × Bytes) :
    Contract (fun e => Parsing W paramHash checked e ∧
        W.crypto.generatePkeyFromSkey keys.1 = .ok entry.pkey ∧ keys.2.length = publicKeySize)
      (W.verifyEntry paramHash entry keys)
      (fun more => Parsing W paramHash (checked ++ more)) (fun _ => SourceInv W) := by
  refine .get_bind ?_
  rintro e ⟨hparsing, hpkey, hdian⟩
  dsimp only
  split
  · refine .of_pure ?_
    intro e' he'
    subst he'
    simpa using hparsing
  · rename_i hcheck
    refine .bind (Q := fun _ => Parsing W paramHash (checked ++ [entry.pkey ++ entry.dataHash]))
      (.of_modify ?_) fun _ => .of_pure fun _ h => h
    intro e' he'
    subst he'
    have hlog : Parsing W paramHash checked (e'.log (.verified e'.calls entry.pkey
        (paramHash ++ e'.mEnclaveHash ++ keys.2 ++ entry.dataHash) entry.signature)) :=
      hparsing.log trivial
    refine ⟨hlog.inv, hlog.kept, ?_⟩
    intro x hx
    obtain hx | hx := List.mem_append.mp hx
    · exact hlog.checked x hx
    · rw [List.mem_singleton] at hx
      subst hx
      refine ⟨entry.pkey, entry.dataHash, W.crypto.pkey_size _ _ hpkey, rfl, ?_⟩
      intro hhash
      refine ⟨keys.2, entry.signature, hdian, ?_, ?_⟩
      · rw [AlgoWrapper.allowanceMsg, ← hhash]
        exact List.mem_cons_self
      · rw [AlgoWrapper.allowanceCheck, hpkey] at hcheck
        rw [AlgoWrapper.allowanceMsg, ← hhash]
        exact hcheck

theorem checkEntry_parsing (checked : List Bytes) (entry : Allowance) :
    Contract (Parsing W paramHash checked) (W.checkEntry paramHash entry)
      (fun more => Parsing W paramHash (checked ++ more)) (fun _ => SourceInv W) := by
  unfold AlgoWrapper.checkEntry
  split
  · refine .of_pure ?_
    intro e he
    simpa using he
  · refine .bind ((parsingFrame W paramHash checked).requestKey_granted entry.pkey) ?_
    intro keys
    split
    · refine .of_pure ?_
      intro e he
      simpa using he.1
    · exact verifyEntry_parsing paramHash checked entry keys

/-- By induction on the entries, with those already checked in front. -/
theorem checkEntries_parsing (checked : List Bytes) (entries : List Allowance) :
    Contract (Parsing W paramHash checked) (W.checkEntries paramHash entries)
      (fun more => Parsing W paramHash (checked ++ more)) (fun _ => SourceInv W) := by
  induction entries generalizing checked with
  | nil =>
    refine .of_pure ?_
    intro e he
    simpa using he
  | cons entry entries ih =>
    refine .bind (checkEntry_parsing paramHash checked entry) fun more => ?_
    refine .bind (ih (checked ++ more)) fun others => .of_pure ?_
    intro e he
    rwa [List.append_assoc] at he

/-- All of `m_ds_use_pkey` is among the entries that have been checked. -/
def Cleared (W : AlgoWrapper) (paramHash : Bytes) (e : Enclave) : Prop :=
  ∃ checked, Parsing W paramHash checked e ∧ ∀ pkey ∈ e.mDsUsePkey, pkey ∈ checked

variable (hkind : W.dataSession = .sealedDataStream ∨ W.dataSession = .multiDataStream)
  (hpolicy : W.dataAllowancePolicy = .checkDataAllowance)
include hkind hpolicy

theorem checkAllowanceD_parsing (checked : List Bytes) :
    Contract (Parsing W paramHash checked) (W.checkAllowanceD checked)
      (fun _ => Cleared W paramHash) (fun _ => SourceInv W) := by
  refine .get_bind ?_
  intro e he
  have hclear (hall : ∀ pkey ∈ e.mDsUsePkey, pkey ∈ checked) (e' : Enclave) (he' : e' = e) :
      Cleared W paramHash e' := by
    subst he'
    exact ⟨checked, he, hall⟩
  rcases hkind with hkind | hkind
  · rw [hkind, hpolicy]
    dsimp only
    split_ifs with hall hnull
    · exact .of_pure (hclear hall)
    · exact .of_throw fun e' he' => he' ▸ he.inv
    · exact .of_throw fun e' he' => he' ▸ he.inv
  · rw [hkind, hpolicy]
    dsimp only
    split_ifs with hall
    · exact .of_pure (hclear hall)
    · exact .of_throw fun e' he' => he' ▸ he.inv

theorem checkAllowance_clears (param : Param) :
    Contract (Parsing W (W.crypto.hash256 param.paramData) []) (W.checkAllowance param)
      (fun _ => Cleared W (W.crypto.hash256 param.paramData)) (fun _ => SourceInv W) := by
  refine .bind (checkEntries_parsing _ [] param.allowances) fun checked => ?_
  exact checkAllowanceD_parsing _ hkind hpolicy ([] ++ checked)

end Check

section Parse

theorem clearedFrame (W : AlgoWrapper) (paramHash : Bytes) :
    W.Frame (Cleared W paramHash) (SourceInv W) where
  fails := by
    rintro e ⟨checked, h, -⟩
    exact h.inv
  request pubkey := by
    refine AlgoWrapper.guards_of_keymgr ?_ ?_ _
    · rintro e ⟨checked, h, -⟩
      exact h.inv
    · rintro e k ⟨checked, h, hall⟩
      exact ⟨checked, ⟨⟨h.inv.law, h.inv.hash, h.inv.used⟩, h.kept, h.checked⟩, hall⟩
  verified := by
    rintro e pkey message signature ⟨checked, h, hall⟩
    exact ⟨checked, h.log trivial, hall⟩
  processed := by
    rintro e id p p' n hp hsource ⟨checked, h, hall⟩
    exact ⟨checked, (parsingFrame W paramHash checked).processed e id p p' n hp hsource h, hall⟩
  results := by
    rintro e r n ⟨checked, h, hall⟩
    exact ⟨checked, (parsingFrame W paramHash checked).results e r n h, hall⟩

lemma Parsing.restart {h h' : Bytes} {checked : List Bytes} {e : Enclave}
    (hp : Parsing W h checked e) : Parsing W h' [] e :=
  ⟨hp.inv, hp.kept, fun _ hentry => by cases hentry⟩

/-- What has been checked covers the data of the parser: a public key has one size, so an
entry splits in one way only. -/
lemma Cleared.authorised {param : Bytes} {e : Enclave} {ids : List ℕ}
    (h : Cleared W (W.crypto.hash256 param) e) (hids : ids ∈ e.mParser) :
    Authorised W e.audit (.doParse e.calls param (e.sources ids)) := by
  obtain ⟨checked, hp, hall⟩ := h
  intro source hsource pkey howner
  obtain ⟨hlen, hused⟩ := hp.inv.used source (hp.kept ids hids source hsource) pkey howner
  obtain ⟨pkey', dataHash, hlen', hsplit, hsigned⟩ := hp.checked _ (hall _ hused)
  obtain ⟨rfl, rfl⟩ := List.append_inj hsplit (hlen.trans hlen'.symm)
  exact hsigned (hp.inv.hash ids hids)

theorem doParse_authorised (param : Bytes) :
    Contract (Cleared W (W.crypto.hash256 param)) (W.doParse param)
      (fun _ => Parsing W [] []) (fun _ => SourceInv W) := by
  refine .get_bind ?_
  intro e he
  split
  · exact .of_throw fun e' he' => he' ▸ (clearedFrame W _).fails e he
  · rename_i ids hids
    refine .bind (Q := fun _ => Parsing W [] []) (.of_modify ?_) fun _ => ?_
    · intro e' he'
      subst he'
      have hauth := he.authorised hids
      obtain ⟨checked, hp, -⟩ := he
      exact (hp.log hauth).restart
    · exact (parsingFrame W [] []).runTask ids _

variable (hkind : W.dataSession = .sealedDataStream ∨ W.dataSession = .multiDataStream)
  (hpolicy : W.dataAllowancePolicy = .checkDataAllowance)
include hkind hpolicy

theorem parseEncrypted_authorised (inputParam : Bytes) (param : Param) :
    Contract (Parsing W [] []) (W.parseEncrypted inputParam param)
      (fun _ => Parsing W [] []) (fun _ => SourceInv W) := by
  have F := parsingFrame W [] []
  refine .bind (Q := fun _ => Parsing W [] []) (.bind (F.request _) fun answer => ?_)
    fun privateKey => ?_
  · cases answer with
    | unset error => exact AlgoWrapper.guards_failWith F.fails error
    | failed privateKey dianPkey error =>
      refine .bind (Guards.of_modify ?_) fun _ => AlgoWrapper.guards_failWith F.fails error
      intro e he
      exact he.vars _ e.mCostGas
    | granted privateKey dianPkey =>
      refine .bind (Guards.of_modify ?_) fun _ => Guards.of_pure
      intro e he
      exact he.vars _ e.mCostGas
  · refine .bind (F.decryptParam _ _ _) fun decryptedParam => ?_
    refine .bind ((checkAllowance_clears hkind hpolicy _).weaken (fun _ he => he.restart)
      (fun _ _ h => h) (fun _ _ h => h)) fun _ => ?_
    refine .bind ((clearedFrame W _).setForwardTargetInfo _) fun _ => ?_
    refine .bind (Q := fun _ => Cleared W (W.crypto.hash256 decryptedParam)) (.of_modify ?_)
      fun _ => ?_
    · rintro e ⟨checked, h, hall⟩
      exact ⟨checked, h.vars _ e.mCostGas, hall⟩
    · refine .bind (doParse_authorised decryptedParam) fun result => .of_modify ?_
      intro e he
      exact he.vars _ 0

theorem parsePlain_authorised (param : Param) :
    Contract (Parsing W [] []) (W.parsePlain param)
      (fun _ => Parsing W [] []) (fun _ => SourceInv W) := by
  refine .bind ((checkAllowance_clears hkind hpolicy _).weaken (fun _ he => he.restart)
    (fun _ _ h => h) (fun _ _ h => h)) fun _ => ?_
  refine .bind (doParse_authorised param.paramData) fun result => .of_modify ?_
  intro e he
  exact he.vars _ e.mCostGas

theorem parseDataItem_authorised (inputParam : Bytes) :
    Contract (Parsing W [] []) (W.parseDataItem inputParam)
      (fun _ => SourceInv W) (fun _ => SourceInv W) := by
  have F := parsingFrame W [] []
  refine .bind (Q := fun _ => Parsing W [] []) ?_ fun _ => .get_bind fun e he => ?_
  · unfold AlgoWrapper.parseDataItemImpl
    split
    · exact AlgoWrapper.guards_crash F.fails
    · split
      · exact parsePlain_authorised hkind hpolicy _
      · refine .bind (Guards.of_modify ?_) fun _ => parseEncrypted_authorised hkind hpolicy _ _
        intro e he
        exact he.vars _ e.mCostGas
  · have hset (f : Enclave → RequestVars) (e' : Enclave) (he' : e' = e) :
        SourceInv W { e' with vars := f e' } := by
      subst he'
      exact ⟨he.inv.law, he.inv.hash, he.inv.used⟩
    rcases hkind with hkind | hkind
    · rw [hkind]
      dsimp only
      split
      · exact .of_throw fun e' he' => he' ▸ he.inv
      · exact .of_modify (hset _)
    · rw [hkind]
      exact .of_modify (hset _)

end Parse

section Machine
variable (hkind : W.dataSession = .sealedDataStream)
include hkind

/-- A new data source comes with its owner's key, and `m_ds_use_pkey` with it. -/
theorem initDataSource_sourceInv (dataSourceInfo : Bytes) :
    Guards (SourceInv W) (SourceInv W) (W.initDataSource dataSourceInfo) := by
  have hkeymgr (e : Enclave) (k : Keymgr) (he : SourceInv W e) :
      SourceInv W { e with keymgr := k } := ⟨he.law, he.hash, he.used⟩
  have F : W.Frame (SourceInv W) (SourceInv W) := {
    fails := fun _ he => he
    request := fun _ => AlgoWrapper.guards_of_keymgr (fun _ he => he) hkeymgr _
    verified := fun _ _ _ _ he => he.log trivial
    processed := fun _ _ _ _ n hp hsource he => he.putProvider hp hsource n
    results := fun _ _ _ he => ⟨he.law, he.hash, he.used⟩ }
  unfold AlgoWrapper.initDataSource
  rw [hkind]
  dsimp only
  split
  · exact AlgoWrapper.guards_crash F.fails
  · rename_i pkg _
    refine .bind (AlgoWrapper.guards_of_keymgr F.fails hkeymgr _) fun _ => ?_
    refine Contract.bind (F.requestKey_granted pkg.pkey) fun keys => .of_modify ?_
    rintro e ⟨he, hpkey, -⟩
    refine ⟨he.law, he.hash, ?_⟩
    intro source hsource pkey howner
    have hsources : source = ⟨some pkg.pkey, pkg.dataHash⟩ := by
      simpa [Enclave.sources, Enclave.resetDatasource, AlgoWrapper.sealedDataProvider,
        DataProvider.new, sealedKind, hpkey, providerSource] using hsource
    subst hsources
    cases howner
    exact ⟨W.crypto.pkey_size _ _ hpkey, List.mem_singleton_self _⟩

omit hkind in
theorem beginParseDataItem_sourceInv :
    Guards (SourceInv W) (SourceInv W) W.beginParseDataItem := by
  refine Contract.bind (Q := fun _ e => SourceInv W e ∧ e.mEnclaveHash = W.enclaveHash)
    (.of_modify ?_) fun _ => ?_
  · intro e he
    exact ⟨⟨he.law, fun _ _ => rfl, he.used⟩, rfl⟩
  · refine Contract.bind (Q := fun _ e => SourceInv W e ∧ e.mEnclaveHash = W.enclaveHash) ?_
      fun _ => ?_
    · refine AlgoWrapper.guards_of_keymgr (fun _ he => he.1) ?_ _
      intro e k he
      exact ⟨⟨he.1.law, he.1.hash, he.1.used⟩, he.2⟩
    · refine .get_bind fun e he => ?_
      split
      · exact .of_throw fun e' he' => he' ▸ he.1
      · refine .of_modify ?_
        intro e' he'
        subst he'
        exact ⟨he.1.law, fun _ _ => he.2, he.1.used⟩

omit hkind in
theorem endParseDataItem_sourceInv :
    Guards (SourceInv W) (SourceInv W) W.endParseDataItem := by
  refine .bind (AlgoWrapper.guards_checkActualDataHash fun _ he => he) fun _ => ?_
  refine .bind (AlgoWrapper.guards_generateResult (fun _ he => he)
    (fun _ _ _ he => ⟨he.law, he.hash, he.used⟩)) fun _ => ?_
  refine .bind (.of_modify fun _ he => he.log trivial) fun _ => ?_
  exact AlgoWrapper.guards_of_keymgr (fun _ he => he)
    (fun _ _ he => ⟨he.law, he.hash, he.used⟩) _

variable (hpolicy : W.dataAllowancePolicy = .checkDataAllowance)
include hpolicy

theorem sourceInv_step (e : Enclave) (ecall : Ecall) (h : SourceInv W e)
    (hC : ecall.isParse → SourceKept e) : SourceInv W (W.step e ecall) := by
  have hreturned (b : Bool) (e : Enclave) (he : SourceInv W e) :
      SourceInv W (AlgoWrapper.returned ecall b e) := by
    cases ecall with
    | parseDataItem inputParam => exact ⟨⟨trivial, he.law⟩, he.hash, he.used⟩
    | initDataSource info => exact ⟨he.law, he.hash, he.used⟩
    | beginParseDataItem => exact ⟨he.law, he.hash, he.used⟩
    | endParseDataItem => exact ⟨he.law, he.hash, he.used⟩
  have hcrashed (e : Enclave) (he : SourceInv W e) : SourceInv W { e with crashed := true } :=
    ⟨he.law, he.hash, he.used⟩
  have hstep (hbody : Guards (SourceInv W) (SourceInv W) (W.body ecall)) :
      SourceInv W (W.step e ecall) :=
    AlgoWrapper.step_of_body hbody hreturned hcrashed h (fun _ => h)
  cases ecall with
  | initDataSource info => exact hstep (initDataSource_sourceInv hkind info)
  | beginParseDataItem => exact hstep beginParseDataItem_sourceInv
  | parseDataItem inputParam =>
    have hparsing : Parsing W [] [] e := ⟨h, hC rfl, fun _ hentry => by cases hentry⟩
    exact AlgoWrapper.step_of_body (parseDataItem_authorised (.inl hkind) hpolicy inputParam)
      hreturned
      hcrashed h (fun _ => hparsing)
  | endParseDataItem => exact hstep endParseDataItem_sourceInv

/-- When the data source is not replaced between the creation of the parser and a call of
`parse_data_item`, the parser runs only on data whose owner has signed an allowance for the
parameter and the enclave. -/
theorem parser_runs_on_allowed_data (ecalls : List Ecall)
    (hC : Along W.step (fun e ecall => ecall.isParse → SourceKept e) W.start ecalls) :
    DataUsePolicy W (run W.step W.start ecalls) := by
  have hstart : SourceInv W W.start := by
    refine ⟨trivial, ?_, ?_⟩
    · intro ids hids
      cases hids
    · intro source hsource
      cases hsource
  have hlaw := (run_invariant (sourceInv_step hkind hpolicy) hstart hC).law
  intro newer older event hsplit
  rw [hsplit] at hlaw
  exact hlaw.at_event

end Machine

section Demo

theorem parser_runs_on_allowed_data_once :
    .doParse 2 [7] [⟨some (demoPkey 5), demoDataHash⟩] ∈
      (run demoWrapper.step demoWrapper.start demoEcalls).audit ∧
    DataUsePolicy demoWrapper (run demoWrapper.step demoWrapper.start demoEcalls) := by
  exact ⟨by decide +kernel, parser_runs_on_allowed_data rfl rfl _ (by decide +kernel)⟩

/-- The parser is created on the data of `5`, then the data of `4` takes its place. -/
def replacedSource : List Ecall :=
  [.initDataSource [5], .beginParseDataItem, .initDataSource [4],
    .parseDataItem (demoInput 7 7 4)]

/-- An allowance of the new owner lets the parser run that was created on the data of another. -/
theorem replaced_source_is_parsed :
    ¬ DataUsePolicy demoWrapper (run demoWrapper.step demoWrapper.start replacedSource) := by
  have haudit : (run demoWrapper.step demoWrapper.start replacedSource).audit =
      [.parsed 3 true, .doParse 3 [7] [⟨some (demoPkey 5), demoDataHash⟩],
        .verified 3 (demoPkey 4)
          (demoWrapper.allowanceMsg (CryptoPack.plain.hash256 [7]) (demoPkey 6) demoDataHash)
          (demoSkey 4 ++ demoWrapper.allowanceMsg (CryptoPack.plain.hash256 [7]) (demoPkey 6)
            demoDataHash)] := by
    decide +kernel
  intro h
  obtain ⟨dianPkey, signature, -, hmem, -⟩ :=
    h [.parsed 3 true] _ _ haudit _ List.mem_cons_self (demoPkey 5) rfl
  have hpkey : demoPkey 5 = demoPkey 4 := by
    injection List.mem_singleton.mp hmem
  revert hpkey
  decide

end Demo
end PrivacyComputing.Analyzer
