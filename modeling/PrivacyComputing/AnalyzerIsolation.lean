import Mathlib.Data.Set.Defs
import PrivacyComputing.AnalyzerOutput

/-! Off-chain results for several requesters. Every result is encrypted under the one internal
key of the enclave, and that key is exported to every requester; what a requester can read
follows in a symbolic model of encryption. -/
namespace PrivacyComputing.Analyzer
open Calls DataProvider Runs

section Symbolic

/-- What the packages are made of. A private key goes by its public key, a result by its place
among the generated ones, and `plain` is what anyone may read. -/
inductive Term
  | result (place : ℕ)
  | skey (pkey : Bytes)
  | cipher (pkey : Bytes) (body : Term)
  | plain (data : Bytes)
  deriving DecidableEq, Repr

/-- A cipher text is opened with the private key of its recipient and in no other way. -/
inductive Derives (known : Set Term) : Term → Prop
  | known {t : Term} (h : t ∈ known) : Derives known t
  | encrypt {t : Term} (pkey : Bytes) (h : Derives known t) : Derives known (.cipher pkey t)
  | decrypt {pkey : Bytes} {t : Term} (h : Derives known (.cipher pkey t))
      (key : Derives known (.skey pkey)) : Derives known t

/-- A key that is exported to a known key opens what is encrypted under it. -/
lemma Derives.through {known : Set Term} {own exported : Bytes} {t : Term}
    (hown : Derives known (.skey own)) (hexport : Derives known (.cipher own (.skey exported)))
    (h : Derives known (.cipher exported t)) : Derives known t :=
  .decrypt h (.decrypt hexport hown)

end Symbolic

/-- A generated result, with the requester that its key is exported to. -/
structure Generated where
  requester : Bytes
  made : ResultVars
  deriving DecidableEq, Repr

/-- The results of a run, the latest first. -/
def generatedResults : List OutputEvent → List Generated
  | [] => []
  | .generated requester made :: older => ⟨requester, made⟩ :: generatedResults older
  | .parsed .. :: older | .checked _ :: older | .sized _ :: older | .returned .. :: older =>
    generatedResults older

/-- The package of a result. -/
def Generated.terms (g : Generated) (place : ℕ) : List Term :=
  [.cipher g.made.mTmpPkey (.result place), .cipher g.requester (.skey g.made.mTmpPkey),
    .plain g.made.mEncryptedResultHash, .plain g.made.mResultSignatureStr,
    .plain g.made.mCostSignatureStr, .plain g.made.mTmpPkey]

/-- What a requester knows: its own private key and all packages. -/
def knowledge (results : List Generated) (requester : Bytes) : Set Term :=
  fun t => t = .skey requester ∨ ∃ (place : ℕ) (g : Generated),
    results[place]? = some g ∧ t ∈ g.terms place

/-- The results of different requesters are encrypted under different keys, and none of them can
read the result of the other. -/
def Isolated (results : List Generated) : Prop :=
  ∀ (i j : ℕ) (g g' : Generated), results[i]? = some g → results[j]? = some g' →
    g.requester ≠ g'.requester →
    g.made.mTmpPkey ≠ g'.made.mTmpPkey ∧ ¬ Derives (knowledge results g.requester) (.result j)

def OneRequester (results : List Generated) : Prop :=
  ∀ g ∈ results, ∀ g' ∈ results, g.requester = g'.requester

/-- What `offchain_result::generate_result` makes: the result is encrypted under the internal
public key, and the internal private key is encrypted to the requester. -/
structure OffchainMade (W : AlgoWrapper) (g : Generated) : Prop where
  tmpPkey : g.made.mTmpPkey = W.internalPublicKey
  result : ∃ rand result, W.crypto.encryptMessageWithPrefix rand W.internalPublicKey result
    cryptoPrefixArbitrary = .ok g.made.mEncryptedResultStr
  exported : ∃ rand, W.crypto.encryptMessageWithPrefix rand g.requester W.internalPrivateKey
    cryptoPrefixArbitrary = .ok g.made.mEncryptedTmpSkey

variable {W : AlgoWrapper} {M : ResultMarshal}

section Generate

/-- While `generate_result` runs: the members of the request are as they were, and the results
are made up to here. -/
structure Making (e₀ : Enclave) (S : ResultVars → Prop) (e : Enclave) : Prop where
  vars : e.vars = e₀.vars
  keymgr : e.keymgr = e₀.keymgr
  results : S e.results

variable {e₀ : Enclave} {S T : ResultVars → Prop}

lemma Making.put {e : Enclave} (h : Making e₀ S e) {put : ResultVars → ResultVars}
    (hput : T (put e.results)) : Making e₀ T (e.putResults put) := ⟨h.vars, h.keymgr, hput⟩

lemma Making.pkeyA {e : Enclave} (h : Making e₀ S e) : W.pkeyA e = W.pkeyA e₀ := by
  rw [AlgoWrapper.pkeyA, AlgoWrapper.pkeyA, h.vars, h.keymgr]

lemma setResults_makes (put : ResultVars → ResultVars) (h : ∀ r, S r → T (put r)) :
    Contract (Making e₀ S) (AlgoWrapper.setResults put) (fun _ => Making e₀ T) (fun _ _ => True) :=
  .of_modify fun _ he => he.put (h _ he.results)

lemma fill_makes (put : Bytes → ResultVars → ResultVars) (made : Enclave → Except StxError Bytes)
    (h : ∀ e output, Making e₀ S e → made e = .ok output → T (put output e.results)) :
    Contract (Making e₀ S) (W.fill put made) (fun _ => Making e₀ T) (fun _ _ => True) := by
  refine .get_bind ?_
  intro e he
  split
  · refine .bind (Q := fun _ _ => True) (.of_modify fun _ _ => trivial) fun _ => ?_
    exact .of_throw fun _ _ => trivial
  · rename_i output hmade
    refine .of_modify ?_
    rintro e' rfl
    exact he.put (h e' output he hmade)

lemma fillOrThrow_makes (put : Bytes → ResultVars → ResultVars)
    (made : Enclave → Except StxError Bytes)
    (h : ∀ e output, Making e₀ S e → made e = .ok output → T (put output e.results)) :
    Contract (Making e₀ S) (AlgoWrapper.fillOrThrow put made) (fun _ => Making e₀ T)
      (fun _ _ => True) := by
  refine .get_bind ?_
  intro e he
  split
  · exact .of_throw fun _ _ => trivial
  · rename_i output hmade
    refine .of_modify ?_
    rintro e' rfl
    exact he.put (h e' output he hmade)

/-- The result is encrypted under the internal key. -/
def ResultEncrypted (W : AlgoWrapper) (r : ResultVars) : Prop :=
  r.mTmpPkey = W.internalPublicKey ∧ ∃ rand result,
    W.crypto.encryptMessageWithPrefix rand W.internalPublicKey result cryptoPrefixArbitrary =
      .ok r.mEncryptedResultStr

theorem generateOffchain_makes (e₀ : Enclave) :
    Contract (Making e₀ fun _ => True) W.generateOffchain
      (fun _ => Making e₀ fun r => OffchainMade W ⟨W.pkeyA e₀, r⟩) (fun _ _ => True) := by
  unfold AlgoWrapper.generateOffchain
  refine .bind (setResults_makes (T := fun r => r.mTmpPkey = W.internalPublicKey) _ ?_) fun _ => ?_
  · intro r _
    rfl
  refine .bind (fill_makes (T := ResultEncrypted W) _ _ ?_) fun _ => ?_
  · intro e output he hmade
    exact ⟨he.results, _, _, hmade⟩
  refine .bind (setResults_makes (T := ResultEncrypted W) _ fun r hr => hr) fun _ => ?_
  refine .bind (fillOrThrow_makes (T := fun r => OffchainMade W ⟨W.pkeyA e₀, r⟩) _ _ ?_) fun _ => ?_
  · intro e output he hmade
    rw [he.pkeyA] at hmade
    exact ⟨he.results.1, he.results.2, _, hmade⟩
  refine .bind (fill_makes (T := fun r => OffchainMade W ⟨W.pkeyA e₀, r⟩) _ _ ?_) fun _ =>
    fill_makes _ _ ?_
  · intro e output he _
    exact ⟨he.results.tmpPkey, he.results.result, he.results.exported⟩
  · intro e output he _
    exact ⟨he.results.tmpPkey, he.results.result, he.results.exported⟩

end Generate

section Runs

/-- All results of a run are made in this way. -/
theorem offchainMade_step (hpolicy : W.result = .offchainResult) {s : Output}
    (h : ∀ g ∈ generatedResults s.history, OffchainMade W g) (call : HostCall) :
    ∀ g ∈ generatedResults (W.outputStep M s call).history, OffchainMade W g := by
  unfold AlgoWrapper.outputStep
  split_ifs
  · exact h
  · cases call with
    | ecall ecall =>
      cases ecall with
      | initDataSource info => exact h
      | beginParseDataItem => exact h
      | parseDataItem inputParam =>
        dsimp only [AlgoWrapper.outputParse]
        split
        · exact h
        · exact h
      | endParseDataItem =>
        dsimp only [AlgoWrapper.outputEnd]
        split
        · unfold AlgoWrapper.outputGenerate
          split
          · rename_i e hmade
            have hgenerate : W.generateOffchain s.enclave = .ok () e := by
              simp only [AlgoWrapper.generateResult, hpolicy] at hmade
              exact hmade
            have hnew := (generateOffchain_makes (W := W) s.enclave).ok ⟨rfl, rfl, trivial⟩
              hgenerate
            intro g hg
            rcases List.mem_cons.mp hg with rfl | hg
            · exact hnew.results
            · exact h g hg
          · exact h
        · exact h
    | getAnalyzeResultSize => exact h
    | getAnalyzeResult size =>
      dsimp only
      split
      · exact h
      · exact h

theorem offchainMade_run (hpolicy : W.result = .offchainResult) (calls : List HostCall) :
    ∀ g ∈ generatedResults (run (W.outputStep M) W.outputStart calls).history,
      OffchainMade W g := by
  refine @run_always _ _ (W.outputStep M)
    (fun s => ∀ g ∈ generatedResults s.history, OffchainMade W g) ?_ W.outputStart calls ?_
  · intro s call hs
    exact offchainMade_step hpolicy hs call
  · intro g hg
    cases hg

/-- Every requester reads every result. -/
theorem requester_derives_result {results : List Generated}
    (hmade : ∀ g ∈ results, OffchainMade W g) {i j : ℕ} {g g' : Generated}
    (hi : results[i]? = some g) (hj : results[j]? = some g') :
    Derives (knowledge results g.requester) (.result j) := by
  have hown : Derives (knowledge results g.requester) (.skey g.requester) := .known (.inl rfl)
  have hexport : Derives (knowledge results g.requester)
      (.cipher g.requester (.skey W.internalPublicKey)) := by
    refine .known (.inr ⟨i, g, hi, ?_⟩)
    rw [← (hmade g (List.mem_of_getElem? hi)).tmpPkey]
    simp [Generated.terms]
  have hresult : Derives (knowledge results g.requester)
      (.cipher W.internalPublicKey (.result j)) := by
    refine .known (.inr ⟨j, g', hj, ?_⟩)
    rw [← (hmade g' (List.mem_of_getElem? hj)).tmpPkey]
    exact List.mem_cons_self
  exact hown.through hexport hresult

/-- The off-chain results of a run are isolated if and only if they all belong to one requester:
two different requesters always share a key and read each other's results. -/
theorem offchain_results_isolated_iff (hpolicy : W.result = .offchainResult)
    (calls : List HostCall) :
    Isolated (generatedResults (run (W.outputStep M) W.outputStart calls).history) ↔
      OneRequester (generatedResults (run (W.outputStep M) W.outputStart calls).history) := by
  have hmade := offchainMade_run (M := M) hpolicy calls
  generalize generatedResults (run (W.outputStep M) W.outputStart calls).history = results at *
  constructor
  · intro hisolated g hg g' hg'
    obtain ⟨i, hi⟩ := List.getElem?_of_mem hg
    obtain ⟨j, hj⟩ := List.getElem?_of_mem hg'
    by_contra hne
    exact (hisolated i j g g' hi hj hne).2 (requester_derives_result hmade hi hj)
  · intro hone i j g g' hi hj hne
    exact absurd (hone g (List.mem_of_getElem? hi) g' (List.mem_of_getElem? hj)) hne

end Runs

section Demo

def offchainWrapper : AlgoWrapper := { demoWrapper with result := .offchainResult }

/-- One request after the other, for the requesters `7` and `a`. -/
def twoRequests (a : UInt8) : List HostCall :=
  [.ecall (.initDataSource [5]), .ecall .beginParseDataItem,
    .ecall (.parseDataItem (demoInput 7 7 5)), .ecall .endParseDataItem,
    .ecall .beginParseDataItem, .ecall (.parseDataItem (demoInput a a 5)), .ecall .endParseDataItem]

theorem one_requester_is_isolated :
    (generatedResults (run (offchainWrapper.outputStep demoMarshal) offchainWrapper.outputStart
      (twoRequests 7)).history).length = 2 ∧
    Isolated (generatedResults (run (offchainWrapper.outputStep demoMarshal)
      offchainWrapper.outputStart (twoRequests 7)).history) := by
  have hiff := offchain_results_isolated_iff (W := offchainWrapper) (M := demoMarshal) rfl
    (twoRequests 7)
  have hrequesters : (generatedResults (run (offchainWrapper.outputStep demoMarshal)
      offchainWrapper.outputStart (twoRequests 7)).history).map Generated.requester =
      [demoPkey 7, demoPkey 7] := by decide +kernel
  generalize generatedResults (run (offchainWrapper.outputStep demoMarshal)
    offchainWrapper.outputStart (twoRequests 7)).history = results at hiff hrequesters ⊢
  refine ⟨by simpa using congrArg List.length hrequesters, hiff.mpr ?_⟩
  have hall : ∀ g ∈ results, g.requester = demoPkey 7 := by
    intro g hg
    have hmem := List.mem_map_of_mem (f := Generated.requester) hg
    rw [hrequesters] at hmem
    simpa using hmem
  intro g hg g' hg'
  rw [hall g hg, hall g' hg']

/-- The requester `7` reads the result of the requester `4`. -/
theorem two_requesters_share_the_key :
    ¬ Isolated (generatedResults (run (offchainWrapper.outputStep demoMarshal)
      offchainWrapper.outputStart (twoRequests 4)).history) := by
  have hmade := offchainMade_run (W := offchainWrapper) (M := demoMarshal) rfl (twoRequests 4)
  have hrequesters : (generatedResults (run (offchainWrapper.outputStep demoMarshal)
      offchainWrapper.outputStart (twoRequests 4)).history).map Generated.requester =
      [demoPkey 4, demoPkey 7] := by decide +kernel
  generalize generatedResults (run (offchainWrapper.outputStep demoMarshal)
    offchainWrapper.outputStart (twoRequests 4)).history = results at hmade hrequesters ⊢
  obtain ⟨g', rest, rfl, hg', hrest⟩ := List.map_eq_cons_iff.mp hrequesters
  obtain ⟨g, last, rfl, hg, -⟩ := List.map_eq_cons_iff.mp hrest
  intro hisolated
  have hne : g.requester ≠ g'.requester := by
    rw [hg, hg']
    decide
  have hi : (g' :: g :: last)[1]? = some g := rfl
  have hj : (g' :: g :: last)[0]? = some g' := rfl
  exact (hisolated 1 0 g g' hi hj hne).2 (requester_derives_result hmade hi hj)

end Demo

end PrivacyComputing.Analyzer
