import Mathlib.Data.List.SplitBy
import Mathlib.Order.Bounds.Basic

/-! Maximal runs of equal keys in a list, in the form of an induction over the runs, and the
extremum of a list that is folded from a start value. -/
namespace PrivacyComputing.ListRuns

section Runs
variable {β κ : Type*} [DecidableEq κ] (key : β → κ)

/-- The maximal runs of equal keys. -/
def runs (xs : List β) : List (List β) := xs.splitBy fun x y => decide (key x = key y)

def runKeys (xs : List β) : List κ := (runs key xs).filterMap fun r => r.head?.map key

/-- Nonempty lists with one key each; the key changes from each list to the next. -/
inductive IsRuns : List (List β) → Prop
  | nil : IsRuns []
  | cons {x : β} {zs : List β} {rs : List (List β)} (same : ∀ z ∈ zs, key z = key x)
      (change : ∀ y ∈ rs.flatten.head?, key y ≠ key x) (rest : IsRuns rs) :
      IsRuns ((x :: zs) :: rs)

variable {key} {xs zs : List β} {rs : List (List β)} {x : β}

lemma key_eq_of_isChain (h : (x :: zs).IsChain fun x y => decide (key x = key y)) :
    ∀ z ∈ zs, key z = key x := by
  induction zs generalizing x with
  | nil =>
    intro z hz
    cases hz
  | cons y zs ih =>
    obtain ⟨hxy, hrest⟩ := List.isChain_cons_cons.mp h
    have hy : key y = key x := (of_decide_eq_true hxy).symm
    intro z hz
    rcases List.mem_cons.mp hz with rfl | hz
    · exact hy
    · exact (ih hrest z hz).trans hy

lemma isRuns_of_isChain (hnil : [] ∉ rs)
    (hsame : ∀ r ∈ rs, r.IsChain fun x y => decide (key x = key y))
    (hchange : rs.IsChain fun r r' => ∃ hr hr',
      decide (key (r.getLast hr) = key (r'.head hr')) = false) : IsRuns key rs := by
  induction rs with
  | nil => exact .nil
  | cons r rs ih =>
    cases r with
    | nil => exact absurd List.mem_cons_self hnil
    | cons x zs =>
      have hx := key_eq_of_isChain (hsame _ List.mem_cons_self)
      refine .cons hx ?_ (ih (fun h => hnil (List.mem_cons_of_mem _ h))
        (fun r hr => hsame r (List.mem_cons_of_mem _ hr)) hchange.tail)
      intro y hy
      cases rs with
      | nil => cases hy
      | cons r' rs =>
        obtain ⟨hr, hr', hne⟩ := (List.isChain_cons_cons.mp hchange).1
        cases r' with
        | nil => exact absurd rfl hr'
        | cons y' ys =>
          cases hy
          have hlast : key ((x :: zs).getLast hr) = key x := by
            rcases List.mem_cons.mp (List.getLast_mem hr) with heq | hmem
            · rw [heq]
            · exact hx _ hmem
          rw [hlast] at hne
          exact Ne.symm (of_decide_eq_false hne)

variable (key) in
lemma isRuns_runs (xs : List β) : IsRuns key (runs key xs) := by
  refine isRuns_of_isChain (List.nil_notMem_splitBy _ xs) (fun _ => List.isChain_of_mem_splitBy) ?_
  exact List.isChain_getLast_head_splitBy (fun x y => decide (key x = key y)) xs

lemma flatten_runs (xs : List β) : (runs key xs).flatten = xs := List.flatten_splitBy _ xs

lemma ne_nil_of_mem_runs {r : List β} (h : r ∈ runs key xs) : r ≠ [] :=
  List.ne_nil_of_mem_splitBy h

lemma length_le_of_mem_runs {r : List β} (h : r ∈ runs key xs) : r.length ≤ xs.length := by
  have hsub := List.sublist_flatten_of_mem h
  rw [flatten_runs] at hsub
  exact hsub.length_le

lemma runKeys_length (xs : List β) : (runKeys key xs).length = (runs key xs).length := by
  unfold runKeys
  have hne : ∀ r ∈ runs key xs, r ≠ [] := fun r hr => ne_nil_of_mem_runs hr
  generalize runs key xs = rs at hne
  induction rs with
  | nil => rfl
  | cons r rs ih =>
    cases r with
    | nil => exact absurd rfl (hne [] List.mem_cons_self)
    | cons x zs =>
      have hrest := ih fun r hr => hne r (List.mem_cons_of_mem _ hr)
      simpa using hrest

omit [DecidableEq κ] in
/-- Neighbouring runs have different keys. -/
lemma IsRuns.isChain_keys (h : IsRuns key rs) :
    (rs.filterMap fun r => r.head?.map key).IsChain (· ≠ ·) := by
  induction h with
  | nil => exact List.isChain_nil
  | @cons x zs rs same change rest ih =>
    simp only [List.filterMap_cons, List.head?_cons, Option.map_some]
    refine List.isChain_cons.mpr ⟨?_, ih⟩
    intro q hq
    cases rest with
    | nil => cases hq
    | cons =>
      cases hq
      exact (change _ rfl).symm

end Runs

section Extremum
variable {β γ : Type*} [LinearOrder γ] (value : β → γ)

/-- Folded from a start value, the greatest of the values is found if the start is not greater
than all of them. -/
lemma isGreatest_foldl_iff (start : γ) (xs : List β) :
    IsGreatest {v | ∃ x ∈ xs, value x = v}
        (xs.foldl (fun m x => if value x < m then m else value x) start) ↔
      ∃ x ∈ xs, start ≤ value x := by
  have hfold : IsGreatest {v | v = start ∨ ∃ x ∈ xs, value x = v}
      (xs.foldl (fun m x => if value x < m then m else value x) start) := by
    induction xs generalizing start with
    | nil =>
      refine ⟨Or.inl rfl, ?_⟩
      rintro v (rfl | ⟨x, hx, -⟩)
      · exact le_rfl
      · cases hx
    | cons y xs ih =>
      rw [List.foldl_cons]
      obtain ⟨hmem, hupper⟩ := ih (if value y < start then start else value y)
      constructor
      · rcases hmem with heq | ⟨x, hx, hvalue⟩
        · rw [Set.mem_ofPred_eq, heq]
          split_ifs
          · exact Or.inl rfl
          · exact Or.inr ⟨y, List.mem_cons_self, rfl⟩
        · exact Or.inr ⟨x, List.mem_cons_of_mem y hx, hvalue⟩
      · have hstart := hupper (Or.inl rfl)
        rintro v (rfl | ⟨x, hx, rfl⟩)
        · refine le_trans ?_ hstart
          split_ifs with hlt
          · exact le_rfl
          · exact not_lt.mp hlt
        · rcases List.mem_cons.mp hx with rfl | hx
          · refine le_trans ?_ hstart
            split_ifs with hlt
            · exact le_of_lt hlt
            · exact le_rfl
          · exact hupper (Or.inr ⟨x, hx, rfl⟩)
  obtain ⟨hmem, hupper⟩ := hfold
  constructor
  · rintro ⟨⟨x, hx, hvalue⟩, -⟩
    exact ⟨x, hx, hvalue ▸ hupper (Or.inl rfl)⟩
  · rintro ⟨x, hx, hle⟩
    refine ⟨?_, fun v hv => hupper (Or.inr hv)⟩
    rcases hmem with heq | hmem
    · have hx' := hupper (Or.inr ⟨x, hx, rfl⟩)
      rw [heq] at hx'
      rw [heq]
      exact ⟨x, hx, le_antisymm hx' hle⟩
    · exact hmem

lemma isLeast_foldl_iff (start : γ) (xs : List β) :
    IsLeast {v | ∃ x ∈ xs, value x = v}
        (xs.foldl (fun m x => if m < value x then m else value x) start) ↔
      ∃ x ∈ xs, value x ≤ start :=
  isGreatest_foldl_iff (γ := γᵒᵈ) value start xs

end Extremum
end PrivacyComputing.ListRuns
