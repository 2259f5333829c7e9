import Mathlib.Data.Multiset.Basic
import PrivacyComputing.AnalyzerMulti

/-! The joint data hash of several sources: `set_data_hash` sorts the hashes of the sources with
`operator>` of the byte strings, joins them without frames and hashes the result. -/
namespace PrivacyComputing.Analyzer
open AlgoWrapper Calls DataProvider

/-- `memcmp` of the first bytes. Beyond the end of a string it would read foreign memory. -/
def memcmp : ℕ → Bytes → Bytes → Ordering
  | 0, _, _ => .eq
  | n + 1, x :: xs, y :: ys => if x < y then .lt else if y < x then .gt else memcmp n xs ys
  | _ + 1, _, _ => .eq

/-- `bytes_base::operator>` compares as many bytes as the left string has. -/
def bytesGreater (a b : Bytes) : Bool := memcmp a.length a b == .gt

/-- What `std::sort` leaves behind with this comparison. -/
structure SortedFrom (rs sorted : List Bytes) : Prop where
  perm : sorted.Perm rs
  ordered : sorted.Pairwise fun a b => bytesGreater b a = false

section Order
variable {n : ℕ}

lemma memcmp_gt_iff {a b : Bytes} (h : a.length = b.length) :
    memcmp a.length a b = .gt ↔ b < a := by
  induction a generalizing b with
  | nil =>
    cases b with
    | nil => simp [memcmp]
    | cons y ys => cases h
  | cons x xs ih =>
    cases b with
    | nil => cases h
    | cons y ys =>
      have hlen : xs.length = ys.length := by simpa using h
      rw [List.length_cons, memcmp, List.cons_lt_cons_iff]
      by_cases hlt : x < y
      · have hne : y ≠ x := fun heq => UInt8.lt_irrefl x (heq ▸ hlt)
        simp [hlt, UInt8.lt_asymm hlt, hne]
      · by_cases hgt : y < x
        · simp [hlt, hgt]
        · have heq : y = x := UInt8.le_antisymm (UInt8.not_lt.mp hlt) (UInt8.not_lt.mp hgt)
          simp [heq, ih hlen]

lemma bytesGreater_iff {a b : Bytes} (h : a.length = b.length) :
    bytesGreater a b = true ↔ b < a := by
  rw [bytesGreater, beq_iff_eq, memcmp_gt_iff h]

lemma pairwise_descending (rs : List Bytes) :
    (rs.insertionSort fun a b => b ≤ a).Pairwise fun a b => b ≤ a := by
  have htotal : Std.Total fun a b : Bytes => b ≤ a := ⟨fun a b => List.le_total b a⟩
  have htrans : IsTrans Bytes fun a b => b ≤ a := ⟨fun a b c hab hbc => List.le_trans hbc hab⟩
  exact List.pairwise_insertionSort _ rs

lemma descending_unique {rs rs' : List Bytes} (hperm : rs.Perm rs')
    (h : rs.Pairwise fun a b => b ≤ a) (h' : rs'.Pairwise fun a b => b ≤ a) : rs = rs' :=
  hperm.eq_of_pairwise (fun _ _ _ _ hab hba => List.le_antisymm hba hab) h h'

/-- On strings of one length the sorted list is determined, whatever the algorithm. -/
theorem sortedFrom_unique {rs sorted : List Bytes} (hlen : ∀ r ∈ rs, r.length = n)
    (h : SortedFrom rs sorted) : sorted = rs.insertionSort fun a b => b ≤ a := by
  refine descending_unique (h.perm.trans (List.perm_insertionSort _ rs).symm) ?_
    (pairwise_descending rs)
  refine h.ordered.imp_of_mem ?_
  intro a b ha hb hgreater
  have hsame : b.length = a.length := by
    rw [hlen b (h.perm.subset hb), hlen a (h.perm.subset ha)]
  rw [← Bool.not_eq_true, bytesGreater_iff hsame, List.not_lt] at hgreater
  exact hgreater

/-- Blocks of one length can be read back from their concatenation. -/
lemma flatten_injective (hn : 0 < n) {xs ys : List Bytes} (hxs : ∀ x ∈ xs, x.length = n)
    (hys : ∀ y ∈ ys, y.length = n) (h : xs.flatten = ys.flatten) : xs = ys := by
  induction xs generalizing ys with
  | nil =>
    cases ys with
    | nil => rfl
    | cons y ys =>
      have hlen := congrArg List.length h
      rw [List.flatten_cons, List.length_append, hys y List.mem_cons_self, List.flatten_nil,
        List.length_nil] at hlen
      omega
  | cons x xs ih =>
    cases ys with
    | nil =>
      have hlen := congrArg List.length h
      rw [List.flatten_cons, List.length_append, hxs x List.mem_cons_self, List.flatten_nil,
        List.length_nil] at hlen
      omega
    | cons y ys =>
      rw [List.flatten_cons, List.flatten_cons] at h
      have hx := hxs x List.mem_cons_self
      have hy := hys y List.mem_cons_self
      obtain ⟨rfl, hrest⟩ := List.append_inj h (hx.trans hy.symm)
      rw [ih (fun a ha => hxs a (List.mem_cons_of_mem _ ha))
        (fun a ha => hys a (List.mem_cons_of_mem _ ha)) hrest]

end Order

section JointHash
variable {W : AlgoWrapper}

/-- The hashes of the sources of a session, without their order. -/
def Enclave.sourceHashes (e : Enclave) : Multiset Bytes :=
  (e.datasources.map Provider.dataHash : List Bytes)

/-- What `set_data_hash` leaves in `m_data_hash`, if it returns. -/
def dataHashSet (W : AlgoWrapper) (e : Enclave) : Option Bytes :=
  match W.setDataHash e with
  | .ok () e' => some e'.vars.mDataHash.value
  | .error _ _ => none

lemma dataHashSet_multi (hmulti : W.dataSession = .multiDataStream) (e : Enclave) :
    dataHashSet W e =
      some (W.crypto.hash256 (jointBytes (e.datasources.map Provider.dataHash))) := by
  simp only [dataHashSet, AlgoWrapper.setDataHash, hmulti, get_bind]
  rfl

lemma jointBytes_perm {rs rs' : List Bytes} (h : rs.Perm rs') : jointBytes rs = jointBytes rs' := by
  have hperm : (rs.insertionSort fun a b => b ≤ a).Perm (rs'.insertionSort fun a b => b ≤ a) :=
    (List.perm_insertionSort _ rs).trans (h.trans (List.perm_insertionSort _ rs').symm)
  have hsorted := descending_unique hperm (pairwise_descending rs) (pairwise_descending rs')
  rw [jointBytes, jointBytes, hsorted]

lemma perm_of_jointBytes {n : ℕ} (hn : 0 < n) {rs rs' : List Bytes} (hrs : ∀ r ∈ rs, r.length = n)
    (hrs' : ∀ r ∈ rs', r.length = n) (h : jointBytes rs = jointBytes rs') : rs.Perm rs' := by
  have hsorted : (rs.insertionSort fun a b => b ≤ a) = rs'.insertionSort fun a b => b ≤ a := by
    refine flatten_injective hn ?_ ?_ h
    · intro r hr
      exact hrs r ((List.mem_insertionSort _).mp hr)
    · intro r hr
      exact hrs' r ((List.mem_insertionSort _).mp hr)
  have hperm := List.perm_insertionSort (fun a b : Bytes => b ≤ a) rs
  rw [hsorted] at hperm
  exact hperm.symm.trans (List.perm_insertionSort _ rs')

/-- The joint hash is a value of the multiset of the hashes, and another multiset gets another
value unless the two strings that were hashed collide. Any result of the sort gives it. -/
theorem joint_hash_is_of_multiset (hmulti : W.dataSession = .multiDataStream) (e e' : Enclave)
    (hsize : ∀ h ∈ e.sourceHashes, h.length = 32) (hsize' : ∀ h ∈ e'.sourceHashes, h.length = 32) :
    (∃ joint, dataHashSet W e = some (W.crypto.hash256 joint) ∧
      ∀ sorted, SortedFrom (e.datasources.map Provider.dataHash) sorted →
        sorted.flatten = joint) ∧
    (e.sourceHashes = e'.sourceHashes → dataHashSet W e = dataHashSet W e') ∧
    (e.sourceHashes ≠ e'.sourceHashes → dataHashSet W e ≠ dataHashSet W e' ∨
      ∃ a b, dataHashSet W e = some (W.crypto.hash256 a) ∧
        dataHashSet W e' = some (W.crypto.hash256 b) ∧
        a ≠ b ∧ W.crypto.hash256 a = W.crypto.hash256 b) := by
  rw [dataHashSet_multi hmulti, dataHashSet_multi hmulti]
  refine ⟨⟨_, rfl, ?_⟩, ?_, ?_⟩
  · intro sorted hsorted
    rw [sortedFrom_unique hsize hsorted, jointBytes]
  · intro hsame
    rw [jointBytes_perm (Multiset.coe_eq_coe.mp hsame)]
  · intro hdiffer
    by_cases hhash : W.crypto.hash256 (jointBytes (e.datasources.map Provider.dataHash)) =
        W.crypto.hash256 (jointBytes (e'.datasources.map Provider.dataHash))
    · refine Or.inr ⟨_, _, rfl, rfl, ?_, hhash⟩
      intro hbytes
      exact hdiffer (Multiset.coe_eq_coe.mpr (perm_of_jointBytes (by decide) hsize hsize' hbytes))
    · left
      intro hsome
      exact hhash (Option.some.inj hsome)

/-- An enclave with one source for each of the given bytes, whose hash is that byte repeated. -/
def jointEnclave (as : List UInt8) : Enclave :=
  { multiWrapper.start with
    providers := as.map fun a =>
      { DataProvider.new CryptoPack.plain .raw [] 0 with mActualDataHash := List.replicate 32 a }
    mDatasource := List.range as.length }

theorem joint_hash_of_three :
    dataHashSet multiWrapper (jointEnclave [1, 3, 2]) =
        dataHashSet multiWrapper (jointEnclave [3, 2, 1]) ∧
      (dataHashSet multiWrapper (jointEnclave [1, 3, 2]) ≠
          dataHashSet multiWrapper (jointEnclave [1, 3]) ∨
        ∃ a b, dataHashSet multiWrapper (jointEnclave [1, 3, 2]) =
            some (multiWrapper.crypto.hash256 a) ∧
          dataHashSet multiWrapper (jointEnclave [1, 3]) =
            some (multiWrapper.crypto.hash256 b) ∧
          a ≠ b ∧ multiWrapper.crypto.hash256 a = multiWrapper.crypto.hash256 b) :=
  ⟨(joint_hash_is_of_multiset rfl _ _ (by decide) (by decide)).2.1 (by decide),
    (joint_hash_is_of_multiset rfl _ _ (by decide) (by decide)).2.2 (by decide)⟩

end JointHash
end PrivacyComputing.Analyzer
