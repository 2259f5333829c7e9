import PrivacyComputing.HpdaOrderedSets

/-! The set operators round by round: in each round an operator takes the values with the least
key and may fill the output record from them. The rows follow from the rounds of the ordered
streams alone. -/
namespace PrivacyComputing.Hpda.OrderedSets
open OrderedStreams

universe u

variable {Col : Type u} {V : Col → Type u} {CT : Type u} [LinearOrder CT] {k : ℕ}

section Rounds

/-- The rows of rounds that fill the one output record or leave it. -/
def rowsFrom : List (Option (Record V → Record V)) → Record V → List (Record V)
  | [], _ => []
  | none :: fills, mData => rowsFrom fills mData
  | some f :: fills, mData => f mData :: rowsFrom fills (f mData)

variable (T : UpperStreams k V CT)

/-- An operator goes through the rounds until `stop`; what it does in a round depends only on the
values with the least key. -/
structure Rounds
    (process : Record V → (Fin k → Option (Record V)) → Bool × (Fin k → Bool) × Record V)
    (fill : (Fin k → Option (Record V)) → Option (Record V → Record V))
    (stop : (Fin k → List (Record V)) → Prop) : Prop where
  empty : ∀ L, (∀ i, L i = []) → stop L
  advance : ∀ L q, stop L → stop (advance T.key L q)
  unfilled : ∀ L q, stop L → fill (present T.key L q) = none
  stopped : ∀ L mData, stop L → process mData (Star.firsts L) = (false, fun _ => false, mData)
  round : ∀ L q mData, ¬ stop L → Least T.key L q → process mData (Star.firsts L) =
    ((fill (present T.key L q)).isSome, fun i => (present T.key L q i).isSome,
      ((fill (present T.key L q)).getD id) mData)

variable {T} {L : Fin k → List (Record V)} {q : CT} {qs : List CT}
  {ps : List (Fin k → Option (Record V))} {i : Fin k} {x : Record V} {xs : List (Record V)}
  {fill : (Fin k → Option (Record V)) → Option (Record V → Record V)}

lemma present_nil (h : L i = []) : present T.key L q i = none := by
  unfold present
  rw [h]
  rfl

lemma present_cons (h : L i = x :: xs) :
    present T.key L q i = if T.key i x = q then some x else none := by
  unfold present
  rw [h, List.head?_cons, Option.filter_some]
  simp only [decide_eq_true_eq]

lemma drop_present : Star.drop (fun i => (present T.key L q i).isSome) L = advance T.key L q := by
  funext i
  unfold Star.drop
  cases h : L i with
  | nil => simp [present_nil h, advance_nil h]
  | cons x xs =>
    by_cases hx : T.key i x = q
    · simp [present_cons h, advance_cons h, hx]
    · simp [present_cons h, advance_cons h, hx]

lemma rowsFrom_of_none {fills : List (Option (Record V → Record V))} (mData : Record V)
    (h : ∀ f ∈ fills, f = none) : rowsFrom fills mData = [] := by
  induction fills with
  | nil => rfl
  | cons f fills ih =>
    rw [h f List.mem_cons_self, rowsFrom]
    exact ih fun f hf => h f (List.mem_cons_of_mem _ hf)

variable [∀ c, Inhabited (V c)]
  {process : Record V → (Fin k → Option (Record V)) → Bool × (Fin k → Bool) × Record V}
  {stop : (Fin k → List (Record V)) → Prop}

omit [∀ c, Inhabited (V c)] in
/-- No row is filled after the operator has stopped. -/
lemma Rounds.unfilled_rest (hr : Rounds T process fill stop) (hm : Merges T.key L qs ps)
    (hstop : stop L) : ∀ p ∈ ps, fill p = none := by
  induction hm with
  | nil empty =>
    intro p hp
    cases hp
  | cons least rest ih =>
    intro p hp
    rcases List.mem_cons.mp hp with rfl | hp
    · exact hr.unfilled _ _ hstop
    · exact ih (hr.advance _ _ hstop) p hp

lemma Rounds.emits_stopped (hr : Rounds T process fill stop) (hstop : stop L) (mData : Record V) :
    Star.Emits (operator process) L mData [] := by
  have hprocess : (operator process).process mData (Star.firsts L) =
      (false, fun _ => false, mData) := hr.stopped L mData hstop
  refine Star.Emits.ended hprocess ?_
  intro i hi
  cases hi

/-- The operator emits the rows of the rounds. -/
theorem Rounds.emits (hr : Rounds T process fill stop) (hm : Merges T.key L qs ps)
    (mData : Record V) : Star.Emits (operator process) L mData (rowsFrom (ps.map fill) mData) := by
  induction hm generalizing mData with
  | nil empty => exact hr.emits_stopped (hr.empty _ empty) mData
  | @cons L q qs ps least rest ih =>
    by_cases hstop : stop L
    · have hnone := hr.unfilled_rest (.cons least rest) hstop
      rw [rowsFrom_of_none]
      · exact hr.emits_stopped hstop mData
      · intro f hf
        obtain ⟨p, hp, rfl⟩ := List.mem_map.mp hf
        exact hnone p hp
    · have hround : (operator process).process mData (Star.firsts L) = _ :=
        hr.round L q mData hstop least
      rw [List.map_cons]
      cases hfill : fill (present T.key L q) with
      | none =>
        rw [hfill] at hround
        refine Star.Emits.passed hround ?_ ?_
        · obtain ⟨i, x, hhead, hkey⟩ := least.attained
          refine ⟨i, ?_, ?_⟩
          · unfold present
            rw [hhead]
            simp [hkey]
          · intro hnil
            rw [hnil] at hhead
            cases hhead
        · rw [drop_present]
          exact ih mData
      | some f =>
        rw [hfill] at hround
        refine Star.Emits.emitted hround ?_
        rw [drop_present]
        exact ih (f mData)

end Rounds

section LeastKey
variable (T : UpperStreams k V CT) {L : Fin k → List (Record V)} {q : CT}
  {inputs : Fin k → Option (Record V)}

lemma le_foldl_min {l : List (Fin k)} {val : CT} (hval : q ≤ val)
    (h : ∀ i x, inputs i = some x → q ≤ T.key i x) :
    q ≤ l.foldl (fun val i =>
      match inputs i with
      | none => val
      | some x => min val (T.key i x)) val := by
  induction l generalizing val with
  | nil => exact hval
  | cons i l ih =>
    rw [List.foldl_cons]
    refine ih ?_
    cases hi : inputs i with
    | none => exact hval
    | some x => exact le_min hval (h i x hi)

lemma foldl_min_le (inputs : Fin k → Option (Record V)) (l : List (Fin k)) (val : CT) :
    l.foldl (fun val i =>
        match inputs i with
        | none => val
        | some x => min val (T.key i x)) val ≤ val ∧
      ∀ i ∈ l, ∀ x, inputs i = some x →
        l.foldl (fun val i =>
          match inputs i with
          | none => val
          | some x => min val (T.key i x)) val ≤ T.key i x := by
  induction l generalizing val with
  | nil =>
    refine ⟨le_rfl, ?_⟩
    intro i hi
    cases hi
  | cons j l ih =>
    simp only [List.foldl_cons]
    cases hj : inputs j with
    | none =>
      refine ⟨(ih val).1, ?_⟩
      intro i hi x hx
      rcases List.mem_cons.mp hi with rfl | hi
      · rw [hj] at hx
        cases hx
      · exact (ih val).2 i hi x hx
    | some y =>
      obtain ⟨hle, hall⟩ := ih (min val (T.key j y))
      refine ⟨hle.trans (min_le_left _ _), ?_⟩
      intro i hi x hx
      rcases List.mem_cons.mp hi with rfl | hi
      · rw [hj] at hx
        cases hx
        exact hle.trans (min_le_right _ _)
      · exact hall i hi x hx

lemma minKey_eq (hleast : Least T.key L q) {i : Fin k} {x : Record V}
    (hx : (L i).head? = some x) : minKey T (Star.firsts L) (T.key i x) = q := by
  obtain ⟨j, y, hy, hkey⟩ := hleast.attained
  refine le_antisymm ?_ (le_foldl_min T (hleast.le i x hx) hleast.le)
  have hle := (foldl_min_le T (Star.firsts L) (List.finRange k) (T.key i x)).2 j
    (List.mem_finRange j) y hy
  rw [hkey] at hle
  exact hle

lemma nextKey_eq_minKey (first : Fin k) (values : Fin k → Record V) :
    nextKey T first values = minKey T (fun i => some (values i)) (T.key first (values first)) := by
  unfold nextKey minKey
  congr 1
  funext val i
  dsimp only
  split_ifs with hlt
  · exact (min_eq_right (le_of_lt hlt)).symm
  · exact (min_eq_left (not_lt.mp hlt)).symm

end LeastKey

section Operators
variable [DecidableEq Col] (T : UpperStreams k V CT) {L : Fin k → List (Record V)} {q : CT}

/-- A round of the intersection fills the output record when every stream has the key. -/
def intersectionFill (p : Fin k → Option (Record V)) : Option (Record V → Record V) :=
  if h : ∀ i, (p i).isSome then some (fillOutput T fun i => (p i).get (h i)) else none

/-- A round of the union fills it from the first stream with the key. -/
def unionFill (p : Fin k → Option (Record V)) : Option (Record V → Record V) :=
  (lowest T p).map fun least mData => copy (T.columns least.1) mData least.2

/-- A round of the difference fills it when the first stream alone has the key. -/
def differenceFill (first : Fin k) (p : Fin k → Option (Record V)) :
    Option (Record V → Record V) :=
  if ∃ i, i ≠ first ∧ (p i).isSome then none
  else (p first).map fun x mData => copy (T.columns first) mData x

omit [DecidableEq Col] in
lemma exists_heads (h : ∀ i, L i ≠ []) :
    ∃ values : Fin k → Record V, ∀ i, (L i).head? = some (values i) :=
  ⟨fun i => (L i).head (h i), fun i => List.head?_eq_some_head (h i)⟩

omit [DecidableEq Col] in
lemma present_of_head {i : Fin k} {x : Record V} (h : (L i).head? = some x) :
    present T.key L q i = if T.key i x = q then some x else none := by
  unfold present
  rw [h, Option.filter_some]
  simp only [decide_eq_true_eq]

variable {T} {p : Fin k → Option (Record V)}

omit [LinearOrder CT] in
lemma intersectionFill_some {values : Fin k → Record V} (h : ∀ i, p i = some (values i)) :
    intersectionFill T p = some (fillOutput T values) := by
  obtain rfl : p = fun i => some (values i) := funext h
  exact dif_pos fun _ => rfl

omit [LinearOrder CT] in
lemma intersectionFill_none {i : Fin k} (h : p i = none) : intersectionFill T p = none := by
  unfold intersectionFill
  rw [dif_neg]
  intro hall
  have hsome := hall i
  rw [h] at hsome
  cases hsome

omit [DecidableEq Col] in
lemma hasIntersection_iff (hleast : Least T.key L q) {values : Fin k → Record V}
    (hvalues : ∀ i, (L i).head? = some (values i)) (first : Fin k) :
    hasIntersection T first values = true ↔ ∀ i, T.key i (values i) = q := by
  unfold hasIntersection
  rw [List.all_eq_true]
  simp only [List.mem_finRange, forall_const, decide_eq_true_eq]
  constructor
  · intro hall i
    obtain ⟨j, y, hy, hkey⟩ := hleast.attained
    rw [hvalues j] at hy
    cases hy
    rw [← hall i, hall j, hkey]
  · intro hall i
    rw [hall first, hall i]

variable (T)

theorem rounds_intersection (hk : 2 ≤ k) :
    Rounds T (intersectionProcess T) (intersectionFill T) fun L => ∃ i, L i = [] where
  empty L h := ⟨⟨0, by omega⟩, h _⟩
  advance L q := by
    rintro ⟨i, hi⟩
    exact ⟨i, advance_nil hi⟩
  unfilled L q := by
    rintro ⟨i, hi⟩
    exact intersectionFill_none (present_nil hi)
  stopped L mData := by
    rintro ⟨i, hi⟩
    unfold intersectionProcess
    rw [dif_neg]
    rintro ⟨-, h⟩
    have hsome := h i
    unfold Star.firsts at hsome
    rw [hi] at hsome
    cases hsome
  round L q mData hstop hleast := by
    obtain ⟨values, hvalues⟩ := exists_heads (not_exists.mp hstop)
    have hfirsts : Star.firsts L = fun i => some (values i) := funext hvalues
    have hnext : nextKey T (firstStream hk) values = q := by
      rw [nextKey_eq_minKey, ← hfirsts]
      exact minKey_eq T hleast (hvalues _)
    have htaken : (fun i => decide (q = T.key i (values i))) =
        fun i => (present T.key L q i).isSome := by
      funext i
      rw [present_of_head T (hvalues i)]
      by_cases hi : T.key i (values i) = q
      · simp [hi]
      · simp [hi, Ne.symm hi]
    have hprocess : intersectionProcess T mData (Star.firsts L) =
        if hasIntersection T (firstStream hk) values then
          (true, fun i => decide (q = T.key i (values i)), fillOutput T values mData)
        else (false, fun i => decide (q = T.key i (values i)), mData) := by
      rw [hfirsts, intersectionProcess, dif_pos ⟨hk, fun _ => rfl⟩, ← hnext]
      rfl
    rw [hprocess, htaken]
    by_cases hall : ∀ i, T.key i (values i) = q
    · rw [if_pos ((hasIntersection_iff hleast hvalues _).mpr hall), intersectionFill_some]
      · rfl
      · intro i
        rw [present_of_head T (hvalues i), if_pos (hall i)]
    · rw [if_neg fun h => hall ((hasIntersection_iff hleast hvalues _).mp h)]
      obtain ⟨i, hi⟩ := not_forall.mp hall
      rw [intersectionFill_none (i := i)]
      · rfl
      · rw [present_of_head T (hvalues i), if_neg hi]

end Operators

section Lowest
variable {T : UpperStreams k V CT} {inputs : Fin k → Option (Record V)}

/-- What the first loop of `has_union` has found after the streams in a list. -/
def IsLowest (T : UpperStreams k V CT) (inputs : Fin k → Option (Record V)) (l : List (Fin k)) :
    Option (Fin k × Record V) → Prop
  | none => ∀ j ∈ l, inputs j = none
  | some (i, x) => i ∈ l ∧ inputs i = some x ∧
      ∀ j ∈ l, ∀ y, inputs j = some y → T.key i x ≤ T.key j y ∧ (j < i → T.key i x < T.key j y)

lemma isLowest_append {l : List (Fin k)} {i index : Fin k} {x z : Record V}
    (hmem : index ∈ l ++ [i]) (hindex : inputs index = some z) (hi : inputs i = some x)
    (hl : ∀ j ∈ l, ∀ y, inputs j = some y →
      T.key index z ≤ T.key j y ∧ (j < index → T.key index z < T.key j y))
    (hlast : T.key index z ≤ T.key i x) (hle : index ≤ i) :
    IsLowest T inputs (l ++ [i]) (some (index, z)) := by
  refine ⟨hmem, hindex, ?_⟩
  intro j hj y hy
  rcases List.mem_append.mp hj with hj | hj
  · exact hl j hj y hy
  · rw [List.mem_singleton.mp hj] at hy ⊢
    rw [hi] at hy
    cases hy
    exact ⟨hlast, fun hlt => absurd (lt_of_lt_of_le hlt hle) (lt_irrefl _)⟩

lemma IsLowest.lower {l : List (Fin k)} {i : Fin k} {least : Option (Fin k × Record V)}
    (h : IsLowest T inputs l least) (hl : ∀ j ∈ l, j < i) :
    IsLowest T inputs (l ++ [i]) (lower T inputs least i) := by
  unfold OrderedSets.lower
  have hself : i ∈ l ++ [i] := List.mem_append_right l (List.mem_singleton_self i)
  cases hi : inputs i with
  | none =>
    cases least with
    | none =>
      intro j hj
      rcases List.mem_append.mp hj with hj | hj
      · exact h j hj
      · rw [List.mem_singleton.mp hj]
        exact hi
    | some least =>
      refine ⟨List.mem_append_left _ h.1, h.2.1, ?_⟩
      intro j hj y hy
      rcases List.mem_append.mp hj with hj | hj
      · exact h.2.2 j hj y hy
      · rw [List.mem_singleton.mp hj, hi] at hy
        cases hy
  | some x =>
    cases least with
    | none =>
      refine isLowest_append hself hi hi ?_ le_rfl le_rfl
      intro j hj y hy
      rw [h j hj] at hy
      cases hy
    | some least =>
      obtain ⟨index, z⟩ := least
      obtain ⟨hmem, hindex, hall⟩ := h
      dsimp only
      split_ifs with hlt
      · refine isLowest_append hself hi hi ?_ le_rfl le_rfl
        intro j hj y hy
        have hless := lt_of_lt_of_le hlt (hall j hj y hy).1
        exact ⟨le_of_lt hless, fun _ => hless⟩
      · exact isLowest_append (List.mem_append_left _ hmem) hindex hi hall (not_lt.mp hlt)
          (le_of_lt (hl index hmem))

variable (T inputs) in
lemma isLowest_foldl {l : List (Fin k)} (h : l.Pairwise (· < ·)) :
    IsLowest T inputs l (l.foldl (lower T inputs) none) := by
  induction l using List.reverseRecOn with
  | nil =>
    intro j hj
    cases hj
  | append_singleton l i ih =>
    obtain ⟨hl, -, hlast⟩ := List.pairwise_append.mp h
    rw [List.foldl_append]
    exact (ih hl).lower fun j hj => hlast j hj i (List.mem_singleton_self i)

lemma lowest_none_iff : lowest T inputs = none ↔ ∀ i, inputs i = none := by
  have hlowest := isLowest_foldl T inputs (List.pairwise_lt_finRange k)
  change IsLowest T inputs _ (lowest T inputs) at hlowest
  cases h : lowest T inputs with
  | none =>
    rw [h] at hlowest
    exact ⟨fun _ i => hlowest i (List.mem_finRange i), fun _ => rfl⟩
  | some least =>
    rw [h] at hlowest
    constructor
    · intro hnone
      cases hnone
    · intro hall
      have hsome := hlowest.2.1
      rw [hall] at hsome
      cases hsome

/-- The least key, and of the streams with this key the first one. -/
lemma lowest_some_iff (i : Fin k) (x : Record V) : lowest T inputs = some (i, x) ↔
    inputs i = some x ∧ ∀ j y, inputs j = some y →
      T.key i x ≤ T.key j y ∧ (j < i → T.key i x < T.key j y) := by
  have hlowest := isLowest_foldl T inputs (List.pairwise_lt_finRange k)
  change IsLowest T inputs _ (lowest T inputs) at hlowest
  cases h : lowest T inputs with
  | none =>
    rw [lowest_none_iff.mp h i]
    constructor
    · intro hnone
      cases hnone
    · rintro ⟨hsome, -⟩
      cases hsome
  | some least =>
    obtain ⟨index, z⟩ := least
    rw [h] at hlowest
    obtain ⟨-, hindex, hall⟩ := hlowest
    constructor
    · intro heq
      cases heq
      exact ⟨hindex, fun j y hy => hall j (List.mem_finRange j) y hy⟩
    · rintro ⟨hi, hleast⟩
      obtain ⟨hle, hlt⟩ := hall i (List.mem_finRange i) x hi
      obtain ⟨hle', hlt'⟩ := hleast index z hindex
      rcases lt_trichotomy i index with hless | heq | hless
      · exact absurd (hlt hless) (not_lt.mpr hle')
      · subst heq
        rw [hindex] at hi
        cases hi
        rfl
      · exact absurd (hlt' hless) (not_lt.mpr hle)

end Lowest

section Union
variable [DecidableEq Col] (T : UpperStreams k V CT) {L : Fin k → List (Record V)} {q : CT}

omit [DecidableEq Col] in
lemma present_some_iff {i : Fin k} {x : Record V} :
    present T.key L q i = some x ↔ Star.firsts L i = some x ∧ T.key i x = q := by
  unfold present Star.firsts
  rw [Option.filter_eq_some_iff]
  simp only [decide_eq_true_eq]

omit [DecidableEq Col] in
lemma any_firsts (i : Fin k) : ((Star.firsts L i).any fun y => decide (T.key i y = q)) =
    (present T.key L q i).isSome := by
  unfold present Star.firsts
  cases (L i).head? with
  | none => rfl
  | some y => by_cases hy : T.key i y = q <;> simp [hy]

omit [DecidableEq Col] in
/-- The first stream with the least key. -/
lemma lowest_present (hleast : Least T.key L q) :
    ∃ i x, lowest T (Star.firsts L) = some (i, x) ∧
      lowest T (present T.key L q) = some (i, x) ∧ T.key i x = q := by
  obtain ⟨j, y, hy, hkey⟩ := hleast.attained
  cases hlowest : lowest T (Star.firsts L) with
  | none =>
    have hnone := lowest_none_iff.mp hlowest j
    unfold Star.firsts at hnone
    rw [hy] at hnone
    cases hnone
  | some least =>
    obtain ⟨i, x⟩ := least
    obtain ⟨hi, hall⟩ := (lowest_some_iff i x).mp hlowest
    have hle := (hall j y hy).1
    rw [hkey] at hle
    have hq := le_antisymm hle (hleast.le i x hi)
    refine ⟨i, x, rfl, ?_, hq⟩
    rw [lowest_some_iff]
    refine ⟨(present_some_iff T).mpr ⟨hi, hq⟩, ?_⟩
    intro j' y' hy'
    exact hall j' y' ((present_some_iff T).mp hy').1

theorem rounds_union (hk : 2 ≤ k) :
    Rounds T (unionProcess T) (unionFill T) fun L => ∀ i, L i = [] where
  empty L h := h
  advance L q h i := advance_nil (h i)
  unfilled L q h := by
    unfold unionFill
    rw [lowest_none_iff.mpr fun i => present_nil (h i)]
    rfl
  stopped L mData h := by
    have hnone : lowest T (Star.firsts L) = none := by
      rw [lowest_none_iff]
      intro i
      unfold Star.firsts
      rw [h i]
      rfl
    rw [unionProcess, if_pos hk, hnone]
  round L q mData _ hleast := by
    obtain ⟨i, x, hfirsts, hpresent, hkey⟩ := lowest_present T hleast
    have hi := ((lowest_some_iff i x).mp hpresent).1
    have htaken : (fun j => decide (j = i) || (Star.firsts L j).any fun y =>
        decide (T.key j y = T.key i x)) = fun j => (present T.key L q j).isSome := by
      funext j
      by_cases hj : j = i
      · subst hj
        rw [hi]
        simp
      · rw [hkey, decide_eq_false hj, Bool.false_or, any_firsts]
    rw [unionProcess, if_pos hk, hfirsts]
    dsimp only
    rw [htaken, unionFill, hpresent]
    rfl

end Union

section Difference
variable [DecidableEq Col] (T : UpperStreams k V CT) {L : Fin k → List (Record V)} {q : CT}

theorem rounds_difference (hk : 2 ≤ k) :
    Rounds T (differenceProcess T) (differenceFill T (firstStream hk)) fun L =>
      L (firstStream hk) = [] where
  empty L h := h _
  advance L q h := advance_nil h
  unfilled L q h := by
    unfold differenceFill
    rw [present_nil h]
    split_ifs
    · rfl
    · rfl
  stopped L mData h := by
    unfold differenceProcess Star.firsts
    rw [dif_pos hk]
    dsimp only
    rw [h]
    rfl
  round L q mData hstop hleast := by
    obtain ⟨x, hx⟩ : ∃ x, Star.firsts L (firstStream hk) = some x :=
      ⟨_, List.head?_eq_some_head hstop⟩
    have hfirst := present_of_head T (q := q) hx
    have hprocess : differenceProcess T mData (Star.firsts L) =
        if (List.finRange k).any fun i =>
            decide (i ≠ firstStream hk) && (present T.key L q i).isSome then
          (false, fun i => (decide (i ≠ firstStream hk) && (present T.key L q i).isSome) ||
            (decide (i = firstStream hk) && decide (T.key (firstStream hk) x = q)), mData)
        else (true, fun i => decide (i = firstStream hk),
          copy (T.columns (firstStream hk)) mData x) := by
      rw [differenceProcess, dif_pos hk]
      dsimp only
      rw [hx]
      dsimp only
      rw [minKey_eq T hleast hx]
      simp only [any_firsts]
    rw [hprocess, differenceFill]
    by_cases hothers : ∃ i, i ≠ firstStream hk ∧ (present T.key L q i).isSome = true
    · rw [if_pos (by simpa using hothers), if_pos hothers]
      have htaken : (fun i => (decide (i ≠ firstStream hk) && (present T.key L q i).isSome) ||
          (decide (i = firstStream hk) && decide (T.key (firstStream hk) x = q))) =
          fun i => (present T.key L q i).isSome := by
        funext i
        by_cases hi : i = firstStream hk
        · rw [hi, hfirst]
          by_cases hkey : T.key (firstStream hk) x = q <;> simp [hkey]
        · simp [hi]
      rw [htaken]
      rfl
    · rw [if_neg (by simpa using hothers), if_neg hothers]
      have hnone : ∀ i, i ≠ firstStream hk → (present T.key L q i).isSome = false := by
        intro i hi
        exact Bool.eq_false_iff.mpr fun hsome => hothers ⟨i, hi, hsome⟩
      obtain ⟨j, y, hy, hkey⟩ := hleast.attained
      have hpresent := (present_some_iff T).mpr ⟨hy, hkey⟩
      have hj : j = firstStream hk := by
        by_contra hne
        have hfalse := hnone j hne
        rw [hpresent] at hfalse
        cases hfalse
      subst hj
      have hxy := hx.symm.trans hy
      cases hxy
      have htaken : (fun i => decide (i = firstStream hk)) =
          fun i => (present T.key L q i).isSome := by
        funext i
        by_cases hi : i = firstStream hk
        · rw [hi, hpresent]
          simp
        · rw [hnone i hi]
          simp [hi]
      rw [htaken, hpresent]
      rfl

end Difference
end PrivacyComputing.Hpda.OrderedSets
