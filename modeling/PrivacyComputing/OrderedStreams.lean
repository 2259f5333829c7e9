import Mathlib.Algebra.Order.BigOperators.Group.Finset
import Mathlib.Data.Fintype.BigOperators
import Mathlib.Data.Fintype.Lattice

/-! Lists in strictly ascending order of a key, read side by side. One round takes the least key
at the heads and drops it from every list; the rounds together are the ascending sequence of all
keys. -/
namespace PrivacyComputing.OrderedStreams

variable {ι β κ : Type*} [LinearOrder κ] (key : ι → β → κ) (L : ι → List β)

def Ascending : Prop := ∀ i, (L i).Pairwise fun x y => key i x < key i y

/-- The record with key `q` of each list. -/
def record (q : κ) (i : ι) : Option β := (L i).find? fun x => decide (key i x = q)

def HasKey (q : κ) : Prop := ∃ i, ∃ x ∈ L i, key i x = q

structure Least (q : κ) : Prop where
  attained : ∃ i x, (L i).head? = some x ∧ key i x = q
  le : ∀ i x, (L i).head? = some x → q ≤ key i x

def advance (q : κ) (i : ι) : List β :=
  match L i with
  | [] => []
  | x :: xs => if key i x = q then xs else x :: xs

/-- The heads with key `q`. -/
def present (q : κ) (i : ι) : Option β := (L i).head?.filter fun x => decide (key i x = q)

/-- The keys of the rounds until every list is empty, and the heads taken in each round. -/
inductive Merges : (ι → List β) → List κ → List (ι → Option β) → Prop
  | nil {L : ι → List β} (empty : ∀ i, L i = []) : Merges L [] []
  | cons {L : ι → List β} {q : κ} {qs : List κ} {ps : List (ι → Option β)}
      (least : Least key L q) (rest : Merges (advance key L q) qs ps) :
      Merges L (q :: qs) (present key L q :: ps)

variable {key L} {q q' : κ} {qs : List κ} {ps : List (ι → Option β)} {i : ι} {x : β} {xs : List β}

lemma advance_nil (h : L i = []) : advance key L q i = [] := by
  unfold advance
  rw [h]

lemma advance_cons (h : L i = x :: xs) :
    advance key L q i = if key i x = q then xs else x :: xs := by
  unfold advance
  rw [h]

lemma advance_sublist (i : ι) : (advance key L q i).Sublist (L i) := by
  cases h : L i with
  | nil => rw [advance_nil h]
  | cons x xs =>
    rw [advance_cons h]
    split_ifs
    · exact List.sublist_cons_self x xs
    · exact List.Sublist.refl _

lemma Ascending.advance (h : Ascending key L) (q : κ) :
    Ascending key (OrderedStreams.advance key L q) := by
  intro i
  exact (h i).sublist (advance_sublist i)

lemma nodup_of_pairwise_lt {k : β → κ} (h : xs.Pairwise fun x y => k x < k y) : xs.Nodup := by
  refine h.imp ?_
  rintro x y hlt rfl
  exact lt_irrefl _ hlt

lemma find_of_mem {k : β → κ} (h : xs.Pairwise fun x y => k x < k y) (hx : x ∈ xs) :
    xs.find? (fun y => decide (k y = k x)) = some x := by
  induction xs with
  | nil => cases hx
  | cons y ys ih =>
    have hpair := List.pairwise_cons.mp h
    rcases List.mem_cons.mp hx with rfl | hx
    · exact List.find?_cons_of_pos (decide_eq_true rfl)
    · have hne : decide (k y = k x) = false := decide_eq_false (ne_of_lt (hpair.1 x hx))
      rw [List.find?_cons, hne]
      exact ih hpair.2 hx

lemma record_some_iff (h : Ascending key L) :
    record key L q i = some x ↔ x ∈ L i ∧ key i x = q := by
  constructor
  · intro hrecord
    have hkey := List.find?_some hrecord
    exact ⟨List.mem_of_find?_eq_some hrecord, of_decide_eq_true hkey⟩
  · rintro ⟨hmem, rfl⟩
    exact find_of_mem (h i) hmem

lemma record_none_iff : record key L q i = none ↔ ∀ x ∈ L i, key i x ≠ q := by
  simp [record]

/-- A round does not touch the records with other keys. -/
lemma record_advance (hne : q' ≠ q) : record key (advance key L q) q' = record key L q' := by
  funext i
  unfold record
  cases h : L i with
  | nil => rw [advance_nil h]
  | cons x xs =>
    rw [advance_cons h]
    split_ifs with hx
    · have hfalse : decide (key i x = q') = false := by
        rw [hx]
        exact decide_eq_false hne.symm
      rw [List.find?_cons, hfalse]
    · rfl

/-- With the least key at the heads, the record with this key is at the head or nowhere. -/
lemma Least.record_eq (hleast : Least key L q) (h : Ascending key L) :
    record key L q = present key L q := by
  funext i
  unfold present
  cases hL : L i with
  | nil =>
    unfold record
    rw [hL]
    rfl
  | cons x xs =>
    have hhead : (L i).head? = some x := by rw [hL]; rfl
    by_cases hx : key i x = q
    · rw [List.head?_cons, Option.filter_some, if_pos (decide_eq_true hx), record_some_iff h, hL]
      exact ⟨List.mem_cons_self, hx⟩
    · rw [List.head?_cons, Option.filter_some, if_neg (by simpa using hx), record_none_iff, hL]
      intro y hy
      have hlt : q < key i x := lt_of_le_of_ne (hleast.le i x hhead) (Ne.symm hx)
      rcases List.mem_cons.mp hy with rfl | hy
      · exact hx
      · have hpair := h i
        rw [hL] at hpair
        exact ne_of_gt (hlt.trans ((List.pairwise_cons.mp hpair).1 y hy))

lemma Least.hasKey (hleast : Least key L q) : HasKey key L q := by
  obtain ⟨i, x, hhead, hkey⟩ := hleast.attained
  exact ⟨i, x, List.mem_of_mem_head? hhead, hkey⟩

lemma Least.le_of_hasKey (hleast : Least key L q) (h : Ascending key L) (hq : HasKey key L q') :
    q ≤ q' := by
  obtain ⟨i, x, hx, rfl⟩ := hq
  cases hL : L i with
  | nil =>
    rw [hL] at hx
    cases hx
  | cons y ys =>
    have hle := hleast.le i y (by rw [hL]; rfl)
    have hpair := h i
    rw [hL] at hpair hx
    rcases List.mem_cons.mp hx with rfl | hx
    · exact hle
    · exact hle.trans (le_of_lt ((List.pairwise_cons.mp hpair).1 x hx))

lemma hasKey_iff_record (h : Ascending key L) :
    HasKey key L q ↔ ∃ i, record key L q i ≠ none := by
  constructor
  · rintro ⟨i, x, hx, hkey⟩
    exact ⟨i, by rw [(record_some_iff h).mpr ⟨hx, hkey⟩]; exact Option.some_ne_none x⟩
  · rintro ⟨i, hi⟩
    obtain ⟨x, hx⟩ := Option.ne_none_iff_exists'.mp hi
    exact ⟨i, x, (record_some_iff h).mp hx⟩

/-- The least key is gone after its round. -/
lemma Least.not_hasKey_advance (hleast : Least key L q) (h : Ascending key L) :
    ¬ HasKey key (advance key L q) q := by
  rintro ⟨i, x, hx, hkey⟩
  cases hL : L i with
  | nil =>
    rw [advance_nil hL] at hx
    cases hx
  | cons y ys =>
    have hpair := h i
    rw [hL] at hpair
    have htail := (List.pairwise_cons.mp hpair).1
    rw [advance_cons hL] at hx
    split_ifs at hx with hy
    · exact absurd (hy.trans hkey.symm) (ne_of_lt (htail x hx))
    · have hle := hleast.le i y (by rw [hL]; rfl)
      rcases List.mem_cons.mp hx with rfl | hx
      · exact hy hkey
      · exact absurd hkey (ne_of_gt (lt_of_le_of_lt hle (htail x hx)))

lemma hasKey_advance_iff (h : Ascending key L) (hne : q' ≠ q) :
    HasKey key (advance key L q) q' ↔ HasKey key L q' := by
  rw [hasKey_iff_record (h.advance q), hasKey_iff_record h, record_advance hne]

lemma Least.hasKey_iff (hleast : Least key L q) (h : Ascending key L) :
    HasKey key L q' ↔ q' = q ∨ HasKey key (advance key L q) q' := by
  by_cases hq : q' = q
  · rw [hq]
    exact ⟨fun _ => Or.inl rfl, fun _ => hleast.hasKey⟩
  · rw [hasKey_advance_iff h hq]
    exact ⟨Or.inr, fun hor => hor.resolve_left hq⟩

lemma Merges.mem_iff (hm : Merges key L qs ps) (h : Ascending key L) :
    q' ∈ qs ↔ HasKey key L q' := by
  induction hm with
  | nil empty =>
    refine ⟨fun hmem => absurd hmem List.not_mem_nil, ?_⟩
    rintro ⟨i, x, hx, -⟩
    rw [empty i] at hx
    cases hx
  | cons least rest ih => rw [List.mem_cons, ih (h.advance _), least.hasKey_iff h]

/-- The rounds take every key once, in ascending order. -/
lemma Merges.ascending (hm : Merges key L qs ps) (h : Ascending key L) : qs.Pairwise (· < ·) := by
  induction hm with
  | nil empty => exact List.Pairwise.nil
  | cons least rest ih =>
    refine List.pairwise_cons.mpr ⟨?_, ih (h.advance _)⟩
    intro q' hq'
    rw [rest.mem_iff (h.advance _)] at hq'
    have hle := least.le_of_hasKey h ((least.hasKey_iff h).mpr (Or.inr hq'))
    refine lt_of_le_of_ne hle ?_
    rintro rfl
    exact least.not_hasKey_advance h hq'

/-- The heads taken in a round are the records with its key. -/
lemma Merges.eq_map_record (hm : Merges key L qs ps) (h : Ascending key L) :
    ps = qs.map (record key L) := by
  induction hm with
  | nil empty => rfl
  | @cons L q qs ps least rest ih =>
    have hrest : qs.map (record key (OrderedStreams.advance key L q)) = qs.map (record key L) := by
      refine List.map_congr_left ?_
      intro q' hq'
      have hlt := (List.pairwise_cons.mp ((Merges.cons least rest).ascending h)).1 q' hq'
      exact record_advance (ne_of_gt hlt)
    rw [List.map_cons, least.record_eq h, ih (h.advance q), hrest]

section Finite
variable [Fintype ι]

variable (key) in
lemma least_exists (h : ∃ i, L i ≠ []) : ∃ q, Least key L q := by
  classical
  obtain ⟨i, hi⟩ := h
  have hne : (Finset.univ.filter fun i => L i ≠ []).Nonempty := ⟨i, by simpa using hi⟩
  have hhead : ∀ i, L i ≠ [] → ∃ x, (L i).head? = some x := by
    intro i hi
    exact ⟨(L i).head hi, List.head?_eq_some_head hi⟩
  have hβ : Nonempty β := ⟨(L i).head hi⟩
  choose! head hhead using hhead
  obtain ⟨m, hm, hmin⟩ := Finset.exists_min_image _ (fun i => key i (head i)) hne
  refine ⟨key m (head m), ⟨m, head m, hhead m (by simpa using hm), rfl⟩, ?_⟩
  intro j x hx
  have hj : L j ≠ [] := by
    intro hnil
    rw [hnil] at hx
    cases hx
  have hsame := (hhead j hj).symm.trans hx
  cases hsame
  exact hmin j (by simpa using hj)

lemma Least.length_advance_lt (hleast : Least key L q) :
    ∑ i, (advance key L q i).length < ∑ i, (L i).length := by
  obtain ⟨i, x, hhead, hkey⟩ := hleast.attained
  refine Finset.sum_lt_sum (fun j _ => (advance_sublist j).length_le) ⟨i, Finset.mem_univ i, ?_⟩
  obtain ⟨xs, hxs⟩ : ∃ xs, L i = x :: xs := by
    cases hL : L i with
    | nil =>
      rw [hL] at hhead
      cases hhead
    | cons y ys =>
      rw [hL] at hhead
      cases hhead
      exact ⟨ys, rfl⟩
  rw [advance_cons hxs, if_pos hkey, hxs]
  exact Nat.lt_succ_self _

variable (key) in
theorem merges_exists (L : ι → List β) : ∃ qs ps, Merges key L qs ps := by
  induction hn : ∑ i, (L i).length using Nat.strong_induction_on generalizing L with
  | _ n ih =>
    by_cases hempty : ∀ i, L i = []
    · exact ⟨[], [], .nil hempty⟩
    · obtain ⟨q, hleast⟩ := least_exists key (not_forall.mp hempty)
      have hlt := hleast.length_advance_lt
      rw [hn] at hlt
      obtain ⟨qs, ps, hrest⟩ := ih _ hlt _ rfl
      exact ⟨q :: qs, _, .cons hleast hrest⟩

end Finite
end PrivacyComputing.OrderedStreams
