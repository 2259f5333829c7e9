import PrivacyComputing.AnalyzerResult

/-! What the inner calls of an ecall leave alone. A property that survives a key request, an
accepted allowance, a step of a data source and a change of the result members survives the
allowance check, the parser and `generate_result`. -/
namespace PrivacyComputing.Analyzer
open Calls DataProvider

namespace AlgoWrapper
variable {W : AlgoWrapper} {I J : Enclave → Prop}

structure Frame (W : AlgoWrapper) (I J : Enclave → Prop) : Prop where
  fails : ∀ e, I e → J e
  request : ∀ pubkey, Guards I J (W.requestPrivateKey pubkey)
  verified : ∀ e pkey message signature,
    I e → I (e.log (.verified e.calls pkey message signature))
  processed : ∀ e id p p' n, e.providers[id]? = some p → providerSource p' = providerSource p →
    I e → I (e.putProvider id p' n)
  results : ∀ e r n, I e → I { e with results := r, draws := n }

lemma guards_crash (h : ∀ e, I e → J e) : Guards I J (crash : EnclaveM α) := .of_throw h

lemma guards_failWith (h : ∀ e, I e → J e) (error : StxError) :
    Guards I J (failWith error : EnclaveM α) := .of_throw h

/-- A call on the session keeps what does not depend on the session. -/
lemma guards_of_keymgr (fails : ∀ e, I e → J e) (hI : ∀ e k, I e → I { e with keymgr := k })
    (m : KeymgrM α) : Guards I J (onKeymgr m) := by
  intro e he
  unfold onKeymgr zoom
  cases m e.keymgr with
  | ok a k => exact hI e k he
  | error stop k => exact fails _ (hI e k he)

/-- A key that is granted belongs to the public key it was asked for. -/
theorem requestPrivateKey_granted (pubkey : Bytes) :
    Contract (fun _ => True) (W.requestPrivateKey pubkey)
      (fun answer _ => ∀ privateKey dianPkey, answer = .granted privateKey dianPkey →
        W.crypto.generatePkeyFromSkey privateKey = .ok pubkey ∧ dianPkey.length = publicKeySize)
      (fun _ _ => True) := by
  have hinner : Contract (fun _ => True)
      (requestPrivateKeyForPublicKey W.crypto W.gcm W.outside W.packages.requestSkeyFromPkey pubkey)
      (fun answer _ => ∀ privateKey dianPkey, answer = .granted privateKey dianPkey →
        W.crypto.generatePkeyFromSkey privateKey = .ok pubkey ∧ dianPkey.length = publicKeySize)
      (fun _ _ => True) := by
    refine .bind (Q := fun _ _ => True) ?_ fun received => .of_pure ?_
    · intro k _
      split <;> trivial
    · intro k _ privateKey dianPkey hgranted
      exact checkKeys_granted W.crypto hgranted
  have hzoom : Contract (fun _ : Enclave => True ∧ True) (W.requestPrivateKey pubkey)
      (fun answer _ => (∀ privateKey dianPkey, answer = .granted privateKey dianPkey →
        W.crypto.generatePkeyFromSkey privateKey = .ok pubkey ∧ dianPkey.length = publicKeySize) ∧
        True) (fun _ _ => True ∧ True) :=
    Contract.zoom hinner (fun _ _ => rfl) (fun _ _ _ => trivial)
  exact hzoom.weaken (fun _ _ => ⟨trivial, trivial⟩) (fun _ _ h => h.1) (fun _ _ _ => trivial)

/-- A provider stays on the data it was made for. -/
lemma process_source {H : Type} (c : CryptoPack) (decode : Bytes → Option (List Bytes))
    (nextDataBatch : Bytes → H → BatchAnswer × H) (p : Provider) (h : H) :
    providerSource (p.process c decode nextDataBatch h).2.1 = providerSource p := by
  obtain ⟨hkind, hhash⟩ : (p.process c decode nextDataBatch h).2.1.kind = p.kind ∧
      (p.process c decode nextDataBatch h).2.1.mExpectDataHash = p.mExpectDataHash := by
    unfold Provider.process
    dsimp only
    split_ifs
    · exact ⟨rfl, rfl⟩
    · exact ⟨rfl, rfl⟩
    · split
      · exact ⟨rfl, rfl⟩
      · exact ⟨rfl, rfl⟩
      · split
        · exact ⟨rfl, rfl⟩
        · exact ⟨rfl, rfl⟩
        · rename_i msg _
          unfold Provider.takeBatch
          cases decode msg with
          | none => exact ⟨rfl, rfl⟩
          | some items => cases items <;> exact ⟨rfl, rfl⟩
  simp [providerSource, hkind, hhash]

section Results
variable (fails : ∀ e, I e → J e)
  (results : ∀ e r n, I e → I { e with results := r, draws := n })
include fails

theorem guards_checkActualDataHash : Guards I J W.checkActualDataHash := by
  refine .get_bind ?_
  intro e
  split_ifs
  · exact guards_crash fails
  · split
    · exact guards_failWith fails _
    · exact .of_pure

include results

omit fails in
theorem guards_setResults (put : ResultVars → ResultVars) : Guards I J (setResults put) :=
  .of_modify fun e he => results e _ _ he

theorem guards_fill (put : Bytes → ResultVars → ResultVars)
    (made : Enclave → Except StxError Bytes) : Guards I J (W.fill put made) := by
  refine .get_bind ?_
  intro e
  split
  · exact .bind (guards_setResults results _) fun _ => guards_failWith fails _
  · exact guards_setResults results _

theorem guards_fillOrThrow (put : Bytes → ResultVars → ResultVars)
    (made : Enclave → Except StxError Bytes) : Guards I J (fillOrThrow put made) := by
  refine .get_bind ?_
  intro e
  split
  · exact guards_crash fails
  · exact guards_setResults results _

theorem guards_sign (msg : Enclave → Bytes) : Guards I J (do W.signCost; W.signResult msg) :=
  .bind (guards_fill fails results _ _) fun _ => guards_fill fails results _ _

theorem guards_generateResult : Guards I J W.generateResult := by
  have hset (put : ResultVars → ResultVars) : Guards I J (setResults put) :=
    guards_setResults results put
  have hfill (put : Bytes → ResultVars → ResultVars) (made : Enclave → Except StxError Bytes) :
      Guards I J (W.fill put made) := guards_fill fails results put made
  have hsign (msg : Enclave → Bytes) : Guards I J (do W.signCost; W.signResult msg) :=
    guards_sign fails results msg
  unfold generateResult
  split
  · exact .of_pure
  · exact .bind (hfill _ _) fun _ => hsign _
  · refine .bind (hset _) fun _ => .bind (hfill _ _) fun _ => .bind (hset _) fun _ => ?_
    exact .bind (guards_fillOrThrow fails results _ _) fun _ => hsign _
  · refine .get_bind ?_
    intro e
    split
    · exact guards_crash fails
    · refine .bind (hset _) fun _ => .bind (hfill _ _) fun _ => .bind (hfill _ _) fun _ => ?_
      exact hsign _
  · refine .get_bind ?_
    intro e
    split_ifs
    · exact guards_failWith fails _
    · exact .bind (hfill _ _) fun _ => guards_fillOrThrow fails results _ _

end Results

namespace Frame
variable (F : Frame W I J)
include F

theorem requestKey_granted (pubkey : Bytes) :
    Contract I (W.requestKey pubkey)
      (fun keys e => I e ∧ W.crypto.generatePkeyFromSkey keys.1 = .ok pubkey ∧
        keys.2.length = publicKeySize)
      (fun _ => J) := by
  have hrequest := Contract.and (F.request pubkey) (requestPrivateKey_granted pubkey)
  refine .bind (hrequest.weaken (fun _ he => ⟨he, trivial⟩) (fun _ _ h => h) (fun _ _ h => h.1)) ?_
  intro answer
  cases answer with
  | unset error => exact .of_throw fun e h => F.fails e h.1
  | failed privateKey dianPkey error => exact .of_throw fun e h => F.fails e h.1
  | granted privateKey dianPkey => exact .of_pure fun e h => ⟨h.1, h.2 _ _ rfl⟩

theorem requestKey (pubkey : Bytes) : Guards I J (W.requestKey pubkey) :=
  (F.requestKey_granted pubkey).weaken (fun _ he => he) (fun _ _ h => h.1) (fun _ _ h => h)

theorem verifyEntry (paramHash : Bytes) (entry : Allowance) (keys : Bytes × Bytes) :
    Guards I J (W.verifyEntry paramHash entry keys) := by
  refine .get_bind ?_
  intro e
  dsimp only
  split
  · exact .of_pure
  · refine .bind (.of_modify ?_) fun _ => .of_pure
    intro e' he
    exact F.verified e' _ _ _ he

theorem checkEntry (paramHash : Bytes) (entry : Allowance) :
    Guards I J (W.checkEntry paramHash entry) := by
  unfold AlgoWrapper.checkEntry
  split
  · exact .of_pure
  · refine .bind (F.requestKey entry.pkey) ?_
    intro keys
    split
    · exact .of_pure
    · exact F.verifyEntry paramHash entry keys

theorem checkEntries (paramHash : Bytes) (entries : List Allowance) :
    Guards I J (W.checkEntries paramHash entries) := by
  induction entries with
  | nil => exact .of_pure
  | cons entry entries ih =>
    refine .bind (F.checkEntry paramHash entry) fun checked => ?_
    exact .bind ih fun others => .of_pure

theorem checkAllowanceD (checkedPkey : List Bytes) :
    Guards I J (W.checkAllowanceD checkedPkey) := by
  refine .get_bind ?_
  intro e
  split
  · split_ifs
    · exact .of_pure
    · exact guards_crash F.fails
    · exact guards_failWith F.fails _
  · split_ifs
    · exact .of_pure
    · exact guards_failWith F.fails _
  · exact .of_pure

theorem checkAllowance (param : Param) : Guards I J (W.checkAllowance param) :=
  .bind (F.checkEntries _ _) fun checkedPkey => F.checkAllowanceD checkedPkey

theorem setForwardTargetInfo (param : Param) : Guards I J (W.setForwardTargetInfo param) := by
  unfold AlgoWrapper.setForwardTargetInfo
  split
  · refine .bind (F.requestKey param.pkey) fun keys => .get_bind ?_
    intro e
    dsimp only
    split
    · exact guards_failWith F.fails _
    · refine .of_modify ?_
      intro e' he
      exact F.results e' _ e'.draws he
  · exact .of_pure

theorem sourceId (ids : List ℕ) (source : ℕ) : Guards I J (W.sourceId ids source) := by
  refine .get_bind ?_
  intro e
  split
  · exact guards_crash F.fails
  · split_ifs
    · exact .of_pure
    · exact guards_crash F.fails

theorem withSource (ids : List ℕ) (source : ℕ) (read : Provider → Option α) :
    Guards I J (W.withSource ids source read) := by
  refine .bind (F.sourceId ids source) fun id => .get_bind ?_
  intro e
  split
  · exact guards_crash F.fails
  · exact .of_pure

theorem processSource (ids : List ℕ) (source : ℕ) : Guards I J (W.processSource ids source) := by
  refine .bind (F.sourceId ids source) ?_
  intro id
  refine Contract.get_bind ?_
  intro e he
  split
  · exact .of_throw fun t ht => ht ▸ F.fails e he
  · rename_i p hp
    refine .bind (Q := fun _ => I) (.of_modify ?_) fun _ => ?_
    · intro t ht
      subst ht
      exact F.processed t id p _ _ hp (process_source _ _ _ p _) he
    · split_ifs
      · exact guards_crash F.fails
      · exact Guards.of_pure

/-- By induction on what the parser does. -/
theorem runTask (ids : List ℕ) (task : Task) : Guards I J (W.runTask ids task) := by
  induction task with
  | done result => exact .of_pure
  | throws => exact guards_crash F.fails
  | process source next ih => exact .bind (F.processSource ids source) ih
  | outputValue source next ih => exact .bind (F.withSource ids source _) ih
  | dataHash source next ih => exact .bind (F.withSource ids source _) ih
  | requestKey pubkey next ih => exact .bind (F.request pubkey) ih

theorem doParse (started : ∀ e param ids, I e → I (e.log (.doParse e.calls param (e.sources ids))))
    (param : Bytes) : Guards I J (W.doParse param) := by
  refine .get_bind ?_
  intro e
  split
  · exact guards_crash F.fails
  · rename_i ids _
    refine .bind (.of_modify ?_) fun _ => F.runTask ids _
    intro e' he
    exact started e' param ids he

theorem decryptParam (privateKey inputParam paramData : Bytes) :
    Guards I J (W.decryptParam privateKey inputParam paramData) := by
  unfold AlgoWrapper.decryptParam
  split_ifs
  · exact guards_crash F.fails
  · split
    · exact guards_crash F.fails
    · exact guards_failWith F.fails _
    · exact .of_pure

theorem parseDataItem
    (started : ∀ e param ids, I e → I (e.log (.doParse e.calls param (e.sources ids))))
    (vars : ∀ e v gas, I e → I { e with vars := v, mCostGas := gas }) (inputParam : Bytes) :
    Guards I J (W.parseDataItem inputParam) := by
  have hvars (f : Enclave → RequestVars) :
      Guards I J (modify fun e => { e with vars := f e } : EnclaveM PUnit) :=
    .of_modify fun e he => vars e _ e.mCostGas he
  refine .bind ?_ fun _ => .get_bind fun e => ?_
  · unfold AlgoWrapper.parseDataItemImpl
    split
    · exact guards_crash F.fails
    · split
      · refine .bind (F.checkAllowance _) fun _ => ?_
        exact .bind (F.doParse started _) fun result => hvars _
      · refine .bind (hvars _) fun _ => .bind (.bind (F.request _) fun answer => ?_)
          fun privateKey => ?_
        · cases answer with
          | unset error => exact guards_failWith F.fails error
          | failed privateKey dianPkey error =>
            exact .bind (hvars _) fun _ => guards_failWith F.fails error
          | granted privateKey dianPkey => exact .bind (hvars _) fun _ => .of_pure
        · refine .bind (F.decryptParam _ _ _) fun decryptedParam => ?_
          refine .bind (F.checkAllowance _) fun _ => .bind (F.setForwardTargetInfo _) fun _ => ?_
          refine .bind (hvars _) fun _ => .bind (F.doParse started _) fun result => .of_modify ?_
          intro e he
          exact vars e _ 0 he
  · split
    · exact .of_pure
    · exact hvars _
    · split
      · exact guards_crash F.fails
      · exact hvars _
    · split
      · exact guards_crash F.fails
      · exact hvars _

section Sources
variable (sources : ∀ e ps ds us, I e →
  I { e with providers := ps, mDatasource := ds, mDsUsePkey := us })
include sources

theorem pushSource (sdi : SealedDataInfo) : Guards I J (W.pushSource sdi) := by
  unfold AlgoWrapper.pushSource
  split
  · refine .bind (F.requestKey sdi.pkey) fun keys => .of_modify ?_
    intro e he
    exact sources e _ _ _ he
  · refine .of_modify ?_
    intro e he
    exact sources e _ _ e.mDsUsePkey he

theorem pushSources (infos : List SealedDataInfo) : Guards I J (W.pushSources infos) := by
  induction infos with
  | nil => exact .of_pure
  | cons sdi infos ih => exact .bind (F.pushSource sources sdi) fun _ => ih

theorem initDataSource (init : Guards I J (onKeymgr (initKeymgrSession W.outside)))
    (dataSourceInfo : Bytes) : Guards I J (W.initDataSource dataSourceInfo) := by
  unfold AlgoWrapper.initDataSource
  split
  · split
    · exact guards_crash F.fails
    · refine .bind init fun _ => .bind (F.requestKey _) fun keys => .of_modify ?_
      intro e he
      exact sources e _ _ _ he
  · split
    · exact guards_crash F.fails
    · exact .bind init fun _ => F.pushSources sources _
  · refine .of_modify ?_
    intro e he
    exact sources e _ _ e.mDsUsePkey he
  · exact guards_failWith F.fails _

end Sources

theorem beginParseDataItem (init : Guards I J (onKeymgr (initKeymgrSession W.outside)))
    (hash : ∀ e, I e → I { e with mEnclaveHash := W.enclaveHash })
    (parser : ∀ e, I e → I { e with mParser := some e.mDatasource }) :
    Guards I J W.beginParseDataItem := by
  refine .bind (.of_modify hash) fun _ => .bind init fun _ => .get_bind ?_
  intro e
  split
  · exact guards_failWith F.fails _
  · exact .of_modify parser

end Frame

/-- What an ecall that does not return success leaves behind. -/
def Ends (Inv : Enclave → Prop) (ecall : Ecall) : Stop → Enclave → Prop
  | .status _, e => Inv (returned ecall false e)
  | .crash, e => Inv { e with crashed := true }

/-- An invariant of the enclave is shown ecall by ecall. -/
theorem step_of_contract {P Inv : Enclave → Prop} {ecall : Ecall} {e : Enclave}
    (h : Contract P (W.body ecall) (fun _ e => Inv (returned ecall true e)) (Ends Inv ecall))
    (hcrashed : e.crashed → Inv e) (hrunning : ¬ e.crashed → P e) : Inv (W.step e ecall) := by
  unfold step
  split_ifs with hc
  · exact hcrashed hc
  · have hP : P e := hrunning hc
    split
    · rename_i e' hbody
      exact h.ok hP hbody
    · rename_i error e' hbody
      exact h.error hP hbody
    · rename_i e' hbody
      exact h.error hP hbody

/-- The same for an invariant that does not depend on how the ecall ends. -/
theorem step_of_body {ecall : Ecall} {e : Enclave}
    (h : Contract I (W.body ecall) (fun _ => J) (fun _ => J))
    (returns : ∀ b e, J e → J (returned ecall b e))
    (crashes : ∀ e, J e → J { e with crashed := true }) (he : J e) (hI : ¬ e.crashed → I e) :
    J (W.step e ecall) := by
  refine step_of_contract (h.weaken (fun _ he => he) (fun _ e he => returns true e he) ?_)
    (fun _ => he) hI
  intro stop e he
  cases stop with
  | status error => exact returns false e he
  | crash => exact crashes e he

end AlgoWrapper
end PrivacyComputing.Analyzer
