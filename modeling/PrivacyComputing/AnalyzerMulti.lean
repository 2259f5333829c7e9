import PrivacyComputing.AnalyzerAllowance
import PrivacyComputing.KeyForwarding

/-! Several data sources. `init_data_source` only adds to them, so the parser keeps running on
sources that `m_ds_use_pkey` still lists, and a parameter with an allowance for each of them
passes the check in whatever order the allowances come. -/
namespace PrivacyComputing.Analyzer
open Calls DataProvider Runs

variable {W : AlgoWrapper}

/-- The sources of the parser are still data sources, and `m_ds_use_pkey` lists nothing but the
owners and hashes of sealed ones. -/
structure SourcesKept (e : Enclave) : Prop where
  bound : ∀ id ∈ e.mDatasource, id < e.providers.length
  parser : ∀ ids ∈ e.mParser, ids ⊆ e.mDatasource
  listed : ∀ used ∈ e.mDsUsePkey, ∃ source ∈ e.sources e.mDatasource, ∃ pkey,
    source.owner = some pkey ∧ used = pkey ++ source.dataHash

structure MultiInv (W : AlgoWrapper) (e : Enclave) : Prop where
  inv : SourceInv W e
  kept : SourcesKept e

section Sources

lemma sources_mono {e : Enclave} {ids ids' : List ℕ} (h : ids ⊆ ids') {source : Source}
    (hs : source ∈ e.sources ids) : source ∈ e.sources ids' := by
  simp only [Enclave.sources, List.mem_map, List.mem_filterMap] at hs ⊢
  obtain ⟨p, ⟨id, hid, hp⟩, rfl⟩ := hs
  exact ⟨p, ⟨id, h hid, hp⟩, rfl⟩

lemma SourcesKept.sourceKept {e : Enclave} (h : SourcesKept e) : SourceKept e :=
  fun ids hids _ hs => sources_mono (h.parser ids hids) hs

/-- A source that is added comes last. -/
lemma sources_pushDatasource {e : Enclave} (h : ∀ id ∈ e.mDatasource, id < e.providers.length)
    (p : Provider) :
    (e.pushDatasource p).sources (e.pushDatasource p).mDatasource =
      e.sources e.mDatasource ++ [providerSource p] := by
  have hold : e.mDatasource.filterMap (fun i => (e.providers ++ [p])[i]?) =
      e.mDatasource.filterMap (e.providers[·]?) := by
    apply List.filterMap_congr
    intro id hid
    rw [List.getElem?_append_left (h id hid)]
  simp [Enclave.sources, Enclave.pushDatasource, hold]

lemma SourcesKept.push {e : Enclave} (h : SourcesKept e) (p : Provider) (used : List Bytes)
    (hused : ∀ u ∈ used, ∃ pkey, (providerSource p).owner = some pkey ∧
      u = pkey ++ (providerSource p).dataHash) :
    SourcesKept { e.pushDatasource p with mDsUsePkey := e.mDsUsePkey ++ used } := by
  have hsources := sources_pushDatasource h.bound p
  refine ⟨?_, ?_, ?_⟩
  · intro id hid
    have hlen : (e.pushDatasource p).providers.length = e.providers.length + 1 := by
      simp [Enclave.pushDatasource]
    change id < (e.pushDatasource p).providers.length
    rcases List.mem_append.mp hid with hid | hid
    · have := h.bound id hid
      omega
    · rw [List.mem_singleton.mp hid]
      omega
  · intro ids hids id hid
    exact List.mem_append_left _ (h.parser ids hids hid)
  · intro u hu
    change ∃ source ∈ (e.pushDatasource p).sources (e.pushDatasource p).mDatasource, _
    rw [hsources]
    rcases List.mem_append.mp hu with hu | hu
    · obtain ⟨source, hs, hrest⟩ := h.listed u hu
      exact ⟨source, List.mem_append_left _ hs, hrest⟩
    · exact ⟨providerSource p, List.mem_append_right _ List.mem_cons_self, hused u hu⟩

lemma SourceInv.push {e : Enclave} (h : SourceInv W e)
    (hbound : ∀ id ∈ e.mDatasource, id < e.providers.length) (p : Provider) (used : List Bytes)
    (hused : ∀ pkey, (providerSource p).owner = some pkey → pkey.length = publicKeySize ∧
      pkey ++ (providerSource p).dataHash ∈ used) :
    SourceInv W { e.pushDatasource p with mDsUsePkey := e.mDsUsePkey ++ used } := by
  refine ⟨h.law, h.hash, ?_⟩
  intro source hsource pkey howner
  change source ∈ (e.pushDatasource p).sources (e.pushDatasource p).mDatasource at hsource
  rw [sources_pushDatasource hbound] at hsource
  rcases List.mem_append.mp hsource with hs | hs
  · obtain ⟨hlen, hmem⟩ := h.used source hs pkey howner
    exact ⟨hlen, List.mem_append_left _ hmem⟩
  · rw [List.mem_singleton.mp hs] at howner ⊢
    obtain ⟨hlen, hmem⟩ := hused pkey howner
    exact ⟨hlen, List.mem_append_right _ hmem⟩

lemma SourcesKept.putProvider {e : Enclave} (h : SourcesKept e) {id : ℕ} {p p' : Provider}
    (hp : e.providers[id]? = some p) (hsource : providerSource p' = providerSource p) (n : ℕ) :
    SourcesKept (e.putProvider id p' n) := by
  refine ⟨?_, h.parser, ?_⟩
  · intro i hi
    have hlen : (e.putProvider id p' n).providers.length = e.providers.length := by
      simp [Enclave.putProvider]
    rw [hlen]
    exact h.bound i hi
  · rw [sources_putProvider hp hsource]
    exact h.listed

end Sources

section Machine

theorem keptFrame (W : AlgoWrapper) : W.Frame SourcesKept SourcesKept where
  fails _ he := he
  request _ := AlgoWrapper.guards_of_keymgr (fun _ he => he)
    (fun _ _ he => ⟨he.bound, he.parser, he.listed⟩) _
  verified _ _ _ _ he := ⟨he.bound, he.parser, he.listed⟩
  processed _ _ _ _ n hp hsource he := he.putProvider hp hsource n
  results _ _ _ he := ⟨he.bound, he.parser, he.listed⟩

theorem multiFrame (W : AlgoWrapper) : W.Frame (MultiInv W) (MultiInv W) where
  fails _ he := he
  request _ := AlgoWrapper.guards_of_keymgr (fun _ he => he)
    (fun _ _ he => ⟨⟨he.inv.law, he.inv.hash, he.inv.used⟩,
      ⟨he.kept.bound, he.kept.parser, he.kept.listed⟩⟩) _
  verified _ _ _ _ he := ⟨he.inv.log trivial, ⟨he.kept.bound, he.kept.parser, he.kept.listed⟩⟩
  processed _ _ _ _ n hp hsource he :=
    ⟨he.inv.putProvider hp hsource n, he.kept.putProvider hp hsource n⟩
  results _ _ _ he := ⟨⟨he.inv.law, he.inv.hash, he.inv.used⟩,
    ⟨he.kept.bound, he.kept.parser, he.kept.listed⟩⟩

theorem pushSource_multiInv (sdi : SealedDataInfo) :
    Guards (MultiInv W) (MultiInv W) (W.pushSource sdi) := by
  unfold AlgoWrapper.pushSource
  split_ifs
  · refine Contract.bind ((multiFrame W).requestKey_granted sdi.pkey) fun keys => .of_modify ?_
    rintro e ⟨he, hpkey, -⟩
    have hsource : providerSource (W.sealedDataProvider e sdi.dataHash keys.1) =
        ⟨some sdi.pkey, sdi.dataHash⟩ := by
      simp [AlgoWrapper.sealedDataProvider, DataProvider.new, sealedKind, hpkey, providerSource]
    refine ⟨he.inv.push he.kept.bound _ _ ?_, he.kept.push _ _ ?_⟩
    · rw [hsource]
      intro pkey howner
      cases howner
      exact ⟨W.crypto.pkey_size _ _ hpkey, List.mem_cons_self⟩
    · rw [hsource]
      intro u hu
      exact ⟨sdi.pkey, rfl, List.mem_singleton.mp hu⟩
  · refine Guards.of_modify ?_
    intro e he
    have hsource : providerSource (W.rawDataProvider e sdi.dataHash) = ⟨none, sdi.dataHash⟩ := rfl
    have hinv := he.inv.push he.kept.bound (W.rawDataProvider e sdi.dataHash) []
      (by rw [hsource]; intro pkey howner; cases howner)
    have hkept := he.kept.push (W.rawDataProvider e sdi.dataHash) [] (by intro u hu; cases hu)
    rw [List.append_nil] at hinv hkept
    exact ⟨hinv, hkept⟩

theorem pushSources_multiInv (infos : List SealedDataInfo) :
    Guards (MultiInv W) (MultiInv W) (W.pushSources infos) := by
  induction infos with
  | nil => exact .of_pure
  | cons sdi infos ih => exact .bind (pushSource_multiInv sdi) fun _ => ih

/-- The other ecalls keep the sources, whatever they do to the rest. -/
theorem body_sourcesKept (ecall : Ecall) (hne : ∀ info, ecall ≠ .initDataSource info) :
    Guards SourcesKept SourcesKept (W.body ecall) := by
  have hkeymgr (e : Enclave) (k : Keymgr) (he : SourcesKept e) :
      SourcesKept { e with keymgr := k } := ⟨he.bound, he.parser, he.listed⟩
  cases ecall with
  | initDataSource info => exact absurd rfl (hne info)
  | beginParseDataItem =>
    refine (keptFrame W).beginParseDataItem
      (AlgoWrapper.guards_of_keymgr (fun _ he => he) hkeymgr _) ?_ ?_
    · exact fun e he => ⟨he.bound, he.parser, he.listed⟩
    · intro e he
      refine ⟨he.bound, ?_, he.listed⟩
      intro ids hids
      cases hids
      exact fun _ hid => hid
  | parseDataItem inputParam =>
    refine (keptFrame W).parseDataItem ?_ ?_ inputParam
    · exact fun e param ids he => ⟨he.bound, he.parser, he.listed⟩
    · exact fun e v gas he => ⟨he.bound, he.parser, he.listed⟩
  | endParseDataItem =>
    refine .bind (AlgoWrapper.guards_checkActualDataHash fun _ he => he) fun _ => ?_
    refine .bind (AlgoWrapper.guards_generateResult (fun _ he => he) (keptFrame W).results)
      fun _ => ?_
    refine .bind (.of_modify fun e he => ⟨he.bound, he.parser, he.listed⟩) fun _ => ?_
    exact AlgoWrapper.guards_of_keymgr (fun _ he => he) hkeymgr _

variable (hkind : W.dataSession = .multiDataStream)
include hkind

theorem initDataSource_multiInv (dataSourceInfo : Bytes) :
    Guards (MultiInv W) (MultiInv W) (W.initDataSource dataSourceInfo) := by
  unfold AlgoWrapper.initDataSource
  rw [hkind]
  dsimp only
  split
  · exact AlgoWrapper.guards_crash fun _ he => he
  · refine .bind (AlgoWrapper.guards_of_keymgr (fun _ he => he) ?_ _) fun _ =>
      pushSources_multiInv _
    intro e k he
    exact ⟨⟨he.inv.law, he.inv.hash, he.inv.used⟩,
      ⟨he.kept.bound, he.kept.parser, he.kept.listed⟩⟩

variable (hpolicy : W.dataAllowancePolicy = .checkDataAllowance)
include hpolicy

theorem body_multiInv (ecall : Ecall) :
    Contract (MultiInv W) (W.body ecall) (fun _ => MultiInv W) (fun _ => MultiInv W) := by
  have hboth {m : EnclaveM Unit} (hinv : Contract (MultiInv W) m (fun _ => SourceInv W)
      (fun _ => SourceInv W)) (hkept : Guards SourcesKept SourcesKept m) :
      Contract (MultiInv W) m (fun _ => MultiInv W) (fun _ => MultiInv W) :=
    (hinv.and hkept).weaken (fun _ he => ⟨he, he.kept⟩) (fun _ _ h => ⟨h.1, h.2⟩)
      (fun _ _ h => ⟨h.1, h.2⟩)
  cases ecall with
  | initDataSource info => exact initDataSource_multiInv hkind info
  | beginParseDataItem =>
    apply hboth _ (body_sourcesKept _ (by simp))
    exact beginParseDataItem_sourceInv.weaken (fun _ he => he.inv) (fun _ _ h => h) (fun _ _ h => h)
  | parseDataItem inputParam =>
    apply hboth _ (body_sourcesKept _ (by simp))
    apply (parseDataItem_authorised (.inr hkind) hpolicy inputParam).weaken _ (fun _ _ h => h)
      (fun _ _ h => h)
    exact fun e he => ⟨he.inv, he.kept.sourceKept, fun _ hentry => by cases hentry⟩
  | endParseDataItem =>
    apply hboth _ (body_sourcesKept _ (by simp))
    exact endParseDataItem_sourceInv.weaken (fun _ he => he.inv) (fun _ _ h => h) (fun _ _ h => h)

theorem multiInv_step (e : Enclave) (ecall : Ecall) (h : MultiInv W e) :
    MultiInv W (W.step e ecall) := by
  have hkept {e e' : Enclave} (he : SourcesKept e) (hp : e'.providers = e.providers)
      (hd : e'.mDatasource = e.mDatasource) (hq : e'.mParser = e.mParser)
      (hu : e'.mDsUsePkey = e.mDsUsePkey) : SourcesKept e' := by
    refine ⟨?_, ?_, ?_⟩
    · rw [hp, hd]
      exact he.bound
    · rw [hq, hd]
      exact he.parser
    · unfold Enclave.sources
      rw [hp, hd, hu]
      exact he.listed
  refine AlgoWrapper.step_of_body (body_multiInv hkind hpolicy ecall) ?_ ?_ h (fun _ => h)
  · intro b e he
    cases ecall with
    | parseDataItem inputParam =>
      exact ⟨⟨⟨trivial, he.inv.law⟩, he.inv.hash, he.inv.used⟩, hkept he.kept rfl rfl rfl rfl⟩
    | initDataSource info =>
      exact ⟨⟨he.inv.law, he.inv.hash, he.inv.used⟩, hkept he.kept rfl rfl rfl rfl⟩
    | beginParseDataItem =>
      exact ⟨⟨he.inv.law, he.inv.hash, he.inv.used⟩, hkept he.kept rfl rfl rfl rfl⟩
    | endParseDataItem =>
      exact ⟨⟨he.inv.law, he.inv.hash, he.inv.used⟩, hkept he.kept rfl rfl rfl rfl⟩
  · intro e he
    exact ⟨⟨he.inv.law, he.inv.hash, he.inv.used⟩, hkept he.kept rfl rfl rfl rfl⟩

theorem multiInv_run (ecalls : List Ecall) : MultiInv W (run W.step W.start ecalls) := by
  apply run_always (multiInv_step hkind hpolicy)
  refine ⟨⟨trivial, ?_, ?_⟩, ?_, ?_, ?_⟩
  · intro ids hids
    cases hids
  · intro source hsource
    cases hsource
  · intro id hid
    cases hid
  · intro ids hids
    cases hids
  · intro used hused
    simp [AlgoWrapper.start, hkind] at hused

end Machine

section Complete

/-- `enclave_interaction::generate_allowance`; a failure throws. -/
def generateAllowance (c : CryptoPack) (privateKey paramHash targetEnclaveHash dianPkey dhash :
    Bytes) : Except StxError Bytes :=
  c.signMessage privateKey (paramHash ++ targetEnclaveHash ++ dianPkey ++ dhash)

/-- The key manager knows the key: as long as the session is `ready`, every request for it is
granted, with the dian key it is registered under. -/
def Known (W : AlgoWrapper) (ready : Keymgr → Prop) (dian : Bytes → Bytes) (pkey : Bytes) : Prop :=
  ∀ k, ready k → ∃ privateKey k', requestPrivateKeyForPublicKey W.crypto W.gcm W.outside
    W.packages.requestSkeyFromPkey pkey k = .ok (.granted privateKey (dian pkey)) k' ∧ ready k'

variable {ready : Keymgr → Prop} {dian : Bytes → Bytes}

lemma requestKey_known {pkey : Bytes} (h : Known W ready dian pkey) {e : Enclave}
    (he : ready e.keymgr) : ∃ privateKey k', W.requestKey pkey e =
      .ok (privateKey, dian pkey) { e with keymgr := k' } ∧ ready k' ∧
      W.crypto.generatePkeyFromSkey privateKey = .ok pkey := by
  obtain ⟨privateKey, k', hrun, hk'⟩ := h e.keymgr he
  have hrequest : W.requestPrivateKey pkey e =
      .ok (.granted privateKey (dian pkey)) { e with keymgr := k' } := by
    simp only [AlgoWrapper.requestPrivateKey, onKeymgr, zoom, hrun]
  refine ⟨privateKey, k', ?_, hk', ?_⟩
  · rw [AlgoWrapper.requestKey, bind_ok hrequest]
    rfl
  · exact ((AlgoWrapper.requestPrivateKey_granted pkey).ok trivial hrequest privateKey _ rfl).1

/-- An entry with a signature that is valid for this parameter and enclave. -/
structure Valid (W : AlgoWrapper) (dian : Bytes → Bytes) (paramHash enclaveHash : Bytes)
    (entry : Allowance) : Prop where
  pkey : entry.pkey.length ≠ 0
  signature : entry.signature.length ≠ 0
  verified : W.crypto.verifySignature
    (paramHash ++ enclaveHash ++ dian entry.pkey ++ entry.dataHash) entry.signature entry.pkey =
    .ok ()

lemma checkEntry_known (paramHash : Bytes) (entry : Allowance)
    (h : entry.pkey.length ≠ 0 → Known W ready dian entry.pkey) {e : Enclave}
    (he : ready e.keymgr) :
    ∃ checked e', W.checkEntry paramHash entry e = .ok checked e' ∧ ready e'.keymgr ∧
      e'.mEnclaveHash = e.mEnclaveHash ∧ e'.mDsUsePkey = e.mDsUsePkey ∧
      (Valid W dian paramHash e.mEnclaveHash entry → entry.pkey ++ entry.dataHash ∈ checked) := by
  by_cases hpkey : entry.pkey.length = 0
  · exact ⟨[], e, by simp [AlgoWrapper.checkEntry, hpkey], he, rfl, rfl,
      fun hvalid => absurd hpkey hvalid.pkey⟩
  · obtain ⟨privateKey, k', hkey, hk', hgen⟩ := requestKey_known (h hpkey) he
    by_cases hsig : entry.signature.length = 0
    · refine ⟨[], { e with keymgr := k' }, ?_, hk', rfl, rfl,
        fun hvalid => absurd hsig hvalid.signature⟩
      rw [AlgoWrapper.checkEntry, if_neg hpkey, bind_ok hkey, if_pos hsig]
      rfl
    · have hbody : W.checkEntry paramHash entry e = W.verifyEntry paramHash entry
          (privateKey, dian entry.pkey) { e with keymgr := k' } := by
        rw [AlgoWrapper.checkEntry, if_neg hpkey, bind_ok hkey, if_neg hsig]
      rw [hbody, AlgoWrapper.verifyEntry, get_bind]
      cases hcheck : W.allowanceCheck privateKey
          (paramHash ++ e.mEnclaveHash ++ dian entry.pkey ++ entry.dataHash) entry.signature with
      | error error =>
        refine ⟨[], { e with keymgr := k' }, by simp, hk', rfl, rfl, ?_⟩
        intro hvalid
        simp only [AlgoWrapper.allowanceCheck, hgen, hvalid.verified] at hcheck
        cases hcheck
      | ok u =>
        simp only [modify_bind]
        exact ⟨_, _, rfl, hk', rfl, rfl, fun _ => List.mem_cons_self⟩

/-- By induction on the entries, in whatever order they come. -/
theorem checkEntries_known (paramHash : Bytes) (entries : List Allowance)
    (h : ∀ entry ∈ entries, entry.pkey.length ≠ 0 → Known W ready dian entry.pkey) {e : Enclave}
    (he : ready e.keymgr) :
    ∃ checked e', W.checkEntries paramHash entries e = .ok checked e' ∧
      e'.mDsUsePkey = e.mDsUsePkey ∧
      ∀ entry ∈ entries, Valid W dian paramHash e.mEnclaveHash entry →
        entry.pkey ++ entry.dataHash ∈ checked := by
  induction entries generalizing e with
  | nil => exact ⟨[], e, rfl, rfl, fun _ hentry => by cases hentry⟩
  | cons entry entries ih =>
    obtain ⟨checked, e₁, hfirst, hready, hhash, hused, hmem⟩ :=
      checkEntry_known paramHash entry (h entry List.mem_cons_self) he
    obtain ⟨others, e₂, hrest, hused', hmem'⟩ :=
      ih (fun a ha => h a (List.mem_cons_of_mem _ ha)) hready
    refine ⟨checked ++ others, e₂, ?_, hused'.trans hused, ?_⟩
    · rw [AlgoWrapper.checkEntries, bind_ok hfirst, bind_ok hrest]
      rfl
    · intro a ha hvalid
      rcases List.mem_cons.mp ha with rfl | ha
      · exact List.mem_append_left _ (hmem hvalid)
      · exact List.mem_append_right _ (hmem' a ha (hhash ▸ hvalid))

theorem checkAllowance_known (hkind : W.dataSession = .multiDataStream) (param : Param)
    (h : ∀ entry ∈ param.allowances, entry.pkey.length ≠ 0 → Known W ready dian entry.pkey)
    {e : Enclave} (he : ready e.keymgr)
    (hall : ∀ used ∈ e.mDsUsePkey, ∃ entry ∈ param.allowances,
      Valid W dian (W.crypto.hash256 param.paramData) e.mEnclaveHash entry ∧
        used = entry.pkey ++ entry.dataHash) :
    ∃ e', W.checkAllowance param e = .ok () e' := by
  obtain ⟨checked, e', hrun, hused, hmem⟩ := checkEntries_known (W.crypto.hash256 param.paramData)
    param.allowances h he
  have hcovered : ∀ pkey ∈ e'.mDsUsePkey, pkey ∈ checked := by
    rw [hused]
    intro used hu
    obtain ⟨entry, hentry, hvalid, rfl⟩ := hall used hu
    exact hmem entry hentry hvalid
  refine ⟨e', ?_⟩
  rw [AlgoWrapper.checkAllowance, bind_ok hrun, AlgoWrapper.checkAllowanceD, get_bind, hkind]
  cases W.dataAllowancePolicy with
  | checkDataAllowance => simp [if_pos hcovered]
  | ignoreDataAllowance => rfl

end Complete

/-- On several data sources the parser runs only when the owner of every sealed one has signed
an allowance for the parameter and the enclave, whatever the ecalls before. And a parameter that
holds such an allowance for every sealed source passes the check, if the key manager knows the
keys of all allowances in it. -/
theorem multi_sources_are_authorised (hkind : W.dataSession = .multiDataStream)
    (hpolicy : W.dataAllowancePolicy = .checkDataAllowance) (ecalls : List Ecall) :
    DataUsePolicy W (run W.step W.start ecalls) ∧
      ∀ (e : Enclave) (param : Param) (ready : Keymgr → Prop) (dian : Bytes → Bytes),
        e = run W.step W.start ecalls → ready e.keymgr →
        (∀ entry ∈ param.allowances, entry.pkey.length ≠ 0 → Known W ready dian entry.pkey) →
        (∀ skey pkey data sig, W.crypto.generatePkeyFromSkey skey = .ok pkey →
          W.crypto.signMessage skey data = .ok sig →
          W.crypto.verifySignature data sig pkey = .ok () ∧ sig.length ≠ 0) →
        (∀ source ∈ e.sources e.mDatasource, ∀ pkey, source.owner = some pkey →
          ∃ skey sig, W.crypto.generatePkeyFromSkey skey = .ok pkey ∧
            generateAllowance W.crypto skey (W.crypto.hash256 param.paramData) e.mEnclaveHash
              (dian pkey) source.dataHash = .ok sig ∧
            ⟨sig, pkey, source.dataHash⟩ ∈ param.allowances) →
        ∃ e', W.checkAllowance param e = .ok () e' := by
  have hinv := multiInv_run hkind hpolicy ecalls
  constructor
  · have hlaw := hinv.inv.law
    intro newer older event hsplit
    rw [hsplit] at hlaw
    exact hlaw.at_event
  · rintro e param ready dian rfl hready hknown hsign hallow
    apply checkAllowance_known hkind param hknown hready
    intro used hused
    obtain ⟨source, hsource, pkey, howner, rfl⟩ := hinv.kept.listed used hused
    obtain ⟨skey, sig, hgen, hmade, hmem⟩ := hallow source hsource pkey howner
    obtain ⟨hverify, hsize⟩ := hsign skey pkey _ sig hgen hmade
    have hlen := (hinv.inv.used source hsource pkey howner).1
    refine ⟨_, hmem, ⟨?_, hsize, hverify⟩, rfl⟩
    simp only [hlen, publicKeySize]
    decide

section Demo
open Channel LittleEndian

/-- The wrapper with several sources, and a key manager that answers every request. -/
def multiWrapper : AlgoWrapper := { demoWrapper with dataSession := .multiDataStream }

def demoSession (n : UInt32) : DhSession := ⟨true, true, demoKey, n, 0, .active, demoId⟩

/-- A session with the demo key manager, after any number of exchanges. -/
def demoReady (k : Keymgr) : Prop := ∃ n, k.mKeymgrSession = some (demoSession n)

theorem demo_granted (a : UInt8) {k : Keymgr} (hready : demoReady k) :
    ∃ k', requestPrivateKeyForPublicKey multiWrapper.crypto multiWrapper.gcm multiWrapper.outside
      multiWrapper.packages.requestSkeyFromPkey (demoPkey a) k =
        .ok (.granted (demoSkey a) (demoPkey 6)) k' ∧ demoReady k' := by
  obtain ⟨n, hk⟩ := hready
  obtain ⟨req, hreq⟩ : ∃ req, (demoSession n).makeRequest Gcm.plain (demoPkey a) = .ok req :=
    ⟨_, rfl⟩
  have hresp : (demoSession (n + 1)).sealMessage Gcm.plain (demoSkey a ++ demoPkey 6) =
      .ok (demoResponse req) := by
    have hn : UInt32.ofNat (n.toNat + 1) = n + 1 := by simp
    cases hreq
    simp only [demoResponse, decode_nonce, hn, demoSession]
    rfl
  have hopen : (demoSession n).openMessage Gcm.plain (demoResponse req) =
      .ok (demoSkey a ++ demoPkey 6) :=
    open_sealMessage Gcm.plain rfl hresp
  have hcheck : (demoSession n).checkResponse Gcm.plain (demoResponse req) =
      (.ok (demoSkey a ++ demoPkey 6), demoSession (n + 1)) := by
    have hnonce : decode ((demoResponse req).reserved.take 4) = (n + 1).toNat := by
      rw [sealMessage_reserved Gcm.plain hresp, decode_nonce]
      rfl
    have hcounter : (demoSession n).counter = n := rfl
    simp only [DhSession.checkResponse, hopen, hnonce, hcounter, ne_eq, not_true_eq_false, if_false]
    rfl
  have hsize : (demoResponse req).payloadSize = 96 := sealMessage_payloadSize Gcm.plain hresp
  have hsend : demoOutside.sendRequest k.tick req = .ok (demoResponse req) := rfl
  have hrequest : ∃ k', sendRequestRecvResponse Gcm.plain demoOutside (demoPkey a) k =
      .ok (.ok (), demoSkey a ++ demoPkey 6) k' ∧ demoReady k' := by
    simp only [sendRequestRecvResponse, get_bind, hk, modify_bind, hreq, hsend, receive, hopen,
      hcheck, hsize]
    exact ⟨_, rfl, n + 1, rfl⟩
  obtain ⟨k', hrun, hready⟩ := hrequest
  refine ⟨k', ?_, hready⟩
  change (sendRequestRecvResponse Gcm.plain demoOutside (demoPkey a) >>= fun received =>
    pure (checkKeys CryptoPack.plain (demoPkey a) received.1 received.2)) k = _
  rw [bind_ok hrun, pure_apply]
  have hgranted : checkKeys CryptoPack.plain (demoPkey a) (.ok ()) (demoSkey a ++ demoPkey 6) =
      .granted (demoSkey a) (demoPkey 6) := by
    have hlen : (demoSkey a).length = privateKeySize := List.length_replicate
    have hall : (demoSkey a ++ demoPkey 6).length = privateKeySize + publicKeySize := by
      rw [List.length_append, hlen]
      rfl
    have htake : (demoSkey a ++ demoPkey 6).take privateKeySize = demoSkey a := List.take_left' hlen
    have hdrop : (demoSkey a ++ demoPkey 6).drop privateKeySize = demoPkey 6 := List.drop_left' hlen
    have hpkey : CryptoPack.plain.generatePkeyFromSkey (demoSkey a) = .ok (demoPkey a) := rfl
    simp [checkKeys, hall, htake, hdrop, hpkey]
  rw [hgranted]

/-- The demo key manager knows every key that a byte names. -/
theorem demo_known (a : UInt8) :
    Known multiWrapper demoReady (fun _ => demoPkey 6) (demoPkey a) :=
  fun _ hk => ⟨demoSkey a, demo_granted a hk⟩

/-- Two sources of the owner `5`, one of them initialised again, and a request. -/
def multiEcalls : List Ecall :=
  [.initDataSource [5], .initDataSource [5, 5], .beginParseDataItem,
    .parseDataItem (demoInput 7 7 5)]

theorem multi_sources_are_authorised_once :
    .doParse 3 [7] (List.replicate 3 ⟨some (demoPkey 5), demoDataHash⟩) ∈
      (run multiWrapper.step multiWrapper.start multiEcalls).audit ∧
    DataUsePolicy multiWrapper (run multiWrapper.step multiWrapper.start multiEcalls) ∧
    ∃ e', multiWrapper.checkAllowance { demoParam 7 7 5 with paramData := [7] }
      (run multiWrapper.step multiWrapper.start multiEcalls) = .ok () e' := by
  obtain ⟨hpolicy, hcheck⟩ := multi_sources_are_authorised (W := multiWrapper) rfl rfl multiEcalls
  have hsources : (run multiWrapper.step multiWrapper.start multiEcalls).sources
      (run multiWrapper.step multiWrapper.start multiEcalls).mDatasource =
      List.replicate 3 ⟨some (demoPkey 5), demoDataHash⟩ := by decide +kernel
  have hsession : (run multiWrapper.step multiWrapper.start multiEcalls).keymgr.mKeymgrSession =
      some (demoSession 5) := by decide +kernel
  have hhash : (run multiWrapper.step multiWrapper.start multiEcalls).mEnclaveHash =
      demoEnclaveHash := by decide +kernel
  refine ⟨by decide +kernel, hpolicy, hcheck _ _ demoReady (fun _ => demoPkey 6) rfl ⟨5, hsession⟩
    ?_ ?_ ?_⟩
  · intro entry hentry _
    cases List.mem_singleton.mp hentry
    exact demo_known 5
  · intro skey pkey data sig hpkey hsig
    refine ⟨KeyForwarding.plain_correct.verify_sign skey pkey data sig hpkey hsig, ?_⟩
    change CryptoPack.plainPkey skey = .ok pkey at hpkey
    unfold CryptoPack.plainPkey at hpkey
    split_ifs at hpkey with hlen
    cases hsig
    simp [hlen, privateKeySize]
  · rw [hsources, hhash]
    intro source hsource pkey howner
    cases List.eq_of_mem_replicate hsource
    cases howner
    exact ⟨demoSkey 5, _, rfl, rfl, List.mem_cons_self⟩

end Demo
end PrivacyComputing.Analyzer
