import Mathlib.Algebra.Ring.Int.Defs
import Mathlib.Algebra.Ring.Nat
import Mathlib.Data.Int.Basic
import Mathlib.Data.List.Perm.Basic
import Mathlib.Data.Nat.Basic
import Mathlib.Data.Nat.Cast.Basic
import Mathlib.Order.Lattice
import Mathlib.Tactic.Common

/-! `loyd_impl`: rounds that give every point to its nearest mean and move the means, until no
mean has moved by `delta`. Points, distances and their arithmetic are arbitrary; the first of
several nearest means gets the point. -/
namespace PrivacyComputing.Hpda.Kmeans

universe u v w

/-- `zero` is `PointType()`; `uninitialised` is what the variable `index` of `assign` holds when
its loop begins. -/
structure Arithmetic (P : Type u) (D : Type v) where
  zero : P
  add : P → P → P
  divide : P → ℕ → P
  distanceSquare : P → P → D
  max : D
  uninitialised : List P → P → ℕ

/-- `ρ` are the iterators. -/
structure State (ρ : Type w) (P : Type u) where
  clusters : List (List ρ)
  means : List P
  lastMeans : List P
  round : ℕ

section Code
variable {ρ : Type w} {P : Type u} {D : Type v} [LinearOrder D]
  (A : Arithmetic P D) (point : ρ → P) (points : List ρ) (deltaSquare : D)

def isAllMeansCloseEnough (s : State ρ P) : Bool :=
  (s.means.zip s.lastMeans).all fun m => !decide (A.distanceSquare m.1 m.2 ≥ deltaSquare)

/-- The loop of `assign` from the mean `i` on. -/
def nearestFrom (p : P) : List P → ℕ → D → ℕ → ℕ
  | [], _, _, index => index
  | m :: means, i, min, index =>
    let d := A.distanceSquare p m
    if d < min then nearestFrom p means (i + 1) d i else nearestFrom p means (i + 1) min index

def nearest (means : List P) (p : P) : ℕ := nearestFrom A p means 0 A.max (A.uninitialised means p)

def assign (means : List P) (clusters : List (List ρ)) (p : ρ) : List (List ρ) :=
  clusters.modify (nearest A means (point p)) fun c => c ++ [p]

/-- The body of the loop over the points. -/
def assignAll (means : List P) (clusters : List (List ρ)) (points : List ρ) : List (List ρ) :=
  points.foldl (assign A point means) clusters

def clusterMean (c : List ρ) : P :=
  A.divide (c.foldl (fun p r => A.add p (point r)) A.zero) c.length

def nextRound (s : State ρ P) : State ρ P :=
  let clusters := assignAll A point s.means (s.clusters.map fun _ => []) points
  { clusters
    means := clusters.map (clusterMean A point)
    lastMeans := s.means
    round := s.round + 1 }

/-- The state before the first test: `m_k` empty clusters, last means of default points. -/
def start (k : ℕ) (means : List P) : State ρ P where
  clusters := List.replicate k []
  means := means
  lastMeans := List.replicate k A.zero
  round := 0

/-- `fuel` bounds the number of tests; `none` is a run that is not over. -/
def loop : ℕ → State ρ P → Option (State ρ P)
  | 0, _ => none
  | fuel + 1, s =>
    if isAllMeansCloseEnough A deltaSquare s then some s
    else loop fuel (nextRound A point points s)

/-- `run` of a `loyd_impl` made for `k` clusters; it throws when the number of means is another. -/
def run [Mul D] (k : ℕ) (delta : D) (fuel : ℕ) (means : List P) :
    Except String (Option (State ρ P)) :=
  if means.length ≠ k then .error "loyd, inconsistent point number"
  else .ok (loop A point points (delta * delta) fuel (start A k means))

/-- `points` of `initial_point_picker_even_k`; the points of an empty input are not picked. -/
def evenK (k : ℕ) : List P :=
  let t := points.length / k
  (List.range k).filterMap fun i => (points[t * i % points.length]?).map point

/-- The point goes to this mean: no mean is nearer, and those before it are farther. -/
def Attracts (means : List P) (p : P) (i : ℕ) : Prop :=
  ∃ h : i < means.length,
    (∀ j (hj : j < i), A.distanceSquare p (means.get ⟨i, h⟩) <
      A.distanceSquare p (means.get ⟨j, Nat.lt_trans hj h⟩)) ∧
    ∀ j (hj : j < means.length),
      A.distanceSquare p (means.get ⟨i, h⟩) ≤ A.distanceSquare p (means.get ⟨j, hj⟩)

/-- What the loop of `assign` makes of `index`: a mean that attracts the point or, when no mean is
nearer than the maximum, what it was. -/
def Chosen (means : List P) (p : P) (i : ℕ) : Prop :=
  (∃ m ∈ means, A.distanceSquare p m < A.max) ∧ Attracts A means p i ∨
  (∀ m ∈ means, A.max ≤ A.distanceSquare p m) ∧ i = A.uninitialised means p

/-- Every mean is chosen for some point of the input. -/
def Covered (means : List P) : Prop :=
  ∀ i < means.length, ∃ r ∈ points, Chosen A means (point r) i

/-- The states before the tests of a run. -/
inductive Reached (first : State ρ P) : State ρ P → Prop
  | start : Reached first first
  | round {s : State ρ P} (before : Reached first s)
      (go : isAllMeansCloseEnough A deltaSquare s = false) :
      Reached first (nextRound A point points s)

end Code

section Assign
variable {ρ : Type w} {P : Type u} {D : Type v} [LinearOrder D]
  {A : Arithmetic P D} {point : ρ → P} {points : List ρ} {means : List P} {p : P}

theorem attracts_zero {m : P} (h : ∀ x ∈ means, A.distanceSquare p m ≤ A.distanceSquare p x) :
    Attracts A (m :: means) p 0 := by
  refine ⟨Nat.zero_lt_succ _, by simp, ?_⟩
  intro j hj
  cases j with
  | zero => exact le_rfl
  | succ j =>
    have hj' : j < means.length := by simpa using hj
    exact h _ (List.get_mem means ⟨j, hj'⟩)

theorem attracts_succ {m : P} {j : ℕ} (h : Attracts A means p j) (hj : j < means.length)
    (hlt : A.distanceSquare p (means.get ⟨j, hj⟩) < A.distanceSquare p m) :
    Attracts A (m :: means) p (j + 1) := by
  obtain ⟨_, hbefore, hall⟩ := h
  refine ⟨Nat.succ_lt_succ hj, ?_, ?_⟩
  · intro l hl
    cases l with
    | zero => exact hlt
    | succ l => exact hbefore l (Nat.lt_of_succ_lt_succ hl)
  · intro l hl
    cases l with
    | zero => exact le_of_lt hlt
    | succ l => exact hall l (Nat.lt_of_succ_lt_succ hl)

theorem attracts_unique {i j : ℕ} (hi : Attracts A means p i) (hj : Attracts A means p j) :
    i = j := by
  obtain ⟨hilt, hibefore, hiall⟩ := hi
  obtain ⟨hjlt, hjbefore, hjall⟩ := hj
  rcases Nat.lt_trichotomy i j with h | h | h
  · exact absurd (hjbefore i h) (not_lt.mpr (hiall j hjlt))
  · exact h
  · exact absurd (hibefore j h) (not_lt.mpr (hjall i hilt))

/-- What the loop of `assign` finds: the first nearest mean below `min`, or what it had. -/
theorem nearestFrom_spec (means : List P) (i : ℕ) (min : D) (index : ℕ) :
    (nearestFrom A p means i min index = index ∧ ∀ m ∈ means, min ≤ A.distanceSquare p m) ∨
    ∃ j, ∃ h : j < means.length, nearestFrom A p means i min index = i + j ∧
      A.distanceSquare p (means.get ⟨j, h⟩) < min ∧ Attracts A means p j := by
  induction means generalizing i min index with
  | nil => exact Or.inl ⟨rfl, by simp⟩
  | cons m means ih =>
    rw [nearestFrom]
    by_cases hlt : A.distanceSquare p m < min
    · rw [if_pos hlt]
      rcases ih (i + 1) (A.distanceSquare p m) i with ⟨hindex, hfar⟩ | ⟨j, hj, hindex, hnear, hattr⟩
      · exact Or.inr ⟨0, Nat.zero_lt_succ _, hindex, hlt, attracts_zero hfar⟩
      · refine Or.inr ⟨j + 1, Nat.succ_lt_succ hj, ?_, lt_trans hnear hlt,
          attracts_succ hattr hj hnear⟩
        rw [hindex]
        omega
    · rw [if_neg hlt]
      rcases ih (i + 1) min index with ⟨hindex, hfar⟩ | ⟨j, hj, hindex, hnear, hattr⟩
      · exact Or.inl ⟨hindex, List.forall_mem_cons.mpr ⟨not_lt.mp hlt, hfar⟩⟩
      · refine Or.inr ⟨j + 1, Nat.succ_lt_succ hj, ?_, hnear,
          attracts_succ hattr hj (lt_of_lt_of_le hnear (not_lt.mp hlt))⟩
        rw [hindex]
        omega

theorem nearest_chosen (means : List P) (p : P) : Chosen A means p (nearest A means p) := by
  have hspec := nearestFrom_spec (A := A) (p := p) means 0 A.max (A.uninitialised means p)
  rcases hspec with ⟨hindex, hfar⟩ | ⟨j, hj, hindex, hnear, hattr⟩
  · exact Or.inr ⟨hfar, hindex⟩
  · rw [nearest, hindex, Nat.zero_add]
    exact Or.inl ⟨⟨_, List.get_mem means ⟨j, hj⟩, hnear⟩, hattr⟩

theorem chosen_unique {i j : ℕ} (hi : Chosen A means p i) (hj : Chosen A means p j) : i = j := by
  rcases hi with ⟨⟨m, hm, hnear⟩, hattr⟩ | ⟨hfar, hindex⟩
  · rcases hj with ⟨-, hattr'⟩ | ⟨hfar', -⟩
    · exact attracts_unique hattr hattr'
    · exact absurd hnear (not_lt.mpr (hfar' m hm))
  · rcases hj with ⟨⟨m, hm, hnear⟩, -⟩ | ⟨-, hindex'⟩
    · exact absurd hnear (not_lt.mpr (hfar m hm))
    · rw [hindex, hindex']

theorem nearest_eq_iff (means : List P) (p : P) (i : ℕ) :
    nearest A means p = i ↔ Chosen A means p i := by
  have hchosen := nearest_chosen (A := A) means p
  constructor
  · intro h
    rw [← h]
    exact hchosen
  · intro h
    exact chosen_unique hchosen h

section Bounded
variable (hmax : ∀ p q, A.distanceSquare p q < A.max)
include hmax

/-- With distances below the maximum the index is always that of a nearest mean. -/
theorem chosen_iff_attracts (hne : means ≠ []) (i : ℕ) :
    Chosen A means p i ↔ Attracts A means p i := by
  obtain ⟨m, hm⟩ := List.exists_mem_of_ne_nil means hne
  constructor
  · intro h
    rcases h with ⟨-, hattr⟩ | ⟨hfar, -⟩
    · exact hattr
    · exact absurd (hmax p m) (not_lt.mpr (hfar m hm))
  · intro hattr
    exact Or.inl ⟨⟨m, hm, hmax p m⟩, hattr⟩

theorem nearest_lt (hne : means ≠ []) (p : P) : nearest A means p < means.length := by
  obtain ⟨h, -⟩ := (chosen_iff_attracts hmax hne _).mp (nearest_chosen means p)
  exact h

end Bounded

theorem flatten_modify_perm {clusters : List (List ρ)} {i : ℕ} (r : ρ)
    (h : i < clusters.length) :
    (clusters.modify i fun c => c ++ [r]).flatten.Perm (clusters.flatten ++ [r]) := by
  induction clusters generalizing i with
  | nil => cases h
  | cons c clusters ih =>
    cases i with
    | zero =>
      rw [List.modify_zero_cons, List.flatten_cons, List.flatten_cons, List.append_assoc,
        List.append_assoc]
      exact List.perm_append_comm.append_left c
    | succ i =>
      rw [List.modify_succ_cons, List.flatten_cons, List.flatten_cons, List.append_assoc]
      exact (ih (Nat.lt_of_succ_lt_succ h)).append_left c

theorem assignAll_length (clusters : List (List ρ)) (points : List ρ) :
    (assignAll A point means clusters points).length = clusters.length := by
  induction points generalizing clusters with
  | nil => rfl
  | cons r points ih =>
    rw [assignAll, List.foldl_cons, ← assignAll, ih, assign, List.length_modify]

/-- Each cluster grows by the points that its mean is the nearest of. -/
theorem assignAll_get {clusters : List (List ρ)} (points : List ρ) {i : ℕ}
    (h : i < clusters.length) :
    (assignAll A point means clusters points)[i]? =
      some (clusters.get ⟨i, h⟩ ++ points.filter fun r => nearest A means (point r) == i) := by
  induction points generalizing clusters with
  | nil => simp [assignAll, h]
  | cons r points ih =>
    have hlength : i < (assign A point means clusters r).length := by
      rw [assign, List.length_modify]
      exact h
    rw [assignAll, List.foldl_cons, ← assignAll, ih hlength]
    by_cases hi : nearest A means (point r) = i
    · simp [assign, hi]
    · simp [assign, hi]

theorem assignAll_perm (hmax : ∀ p q, A.distanceSquare p q < A.max) (hne : means ≠ [])
    {clusters : List (List ρ)} (hlength : clusters.length = means.length) (points : List ρ) :
    (assignAll A point means clusters points).flatten.Perm (clusters.flatten ++ points) := by
  induction points generalizing clusters with
  | nil => simp [assignAll]
  | cons r points ih =>
    have hindex : nearest A means (point r) < clusters.length := by
      rw [hlength]
      exact nearest_lt hmax hne (point r)
    have hnext : (assign A point means clusters r).length = means.length := by
      rw [assign, List.length_modify, hlength]
    rw [assignAll, List.foldl_cons, ← assignAll]
    refine (ih hnext).trans ?_
    have hassign := (flatten_modify_perm r hindex).append_right points
    rw [List.append_assoc, List.singleton_append] at hassign
    exact hassign

end Assign
section Rounds
variable {ρ : Type w} {P : Type u} {D : Type v} [LinearOrder D]
  {A : Arithmetic P D} {point : ρ → P} {points : List ρ} {deltaSquare : D} {k : ℕ}
  {means : List P} {s s' : State ρ P}

/-- `k` clusters and `k` means. -/
structure Sized (k : ℕ) (s : State ρ P) : Prop where
  clusters : s.clusters.length = k
  means : s.means.length = k

omit [LinearOrder D] in
theorem sized_start (h : means.length = k) :
    Sized k (start (ρ := ρ) A k means) :=
  ⟨List.length_replicate, h⟩

theorem sized_nextRound (h : Sized k s) : Sized k (nextRound A point points s) := by
  have hclusters : (nextRound A point points s).clusters.length = k := by
    rw [nextRound, assignAll_length, List.length_map, h.clusters]
  refine ⟨hclusters, ?_⟩
  have hmeans : (nextRound A point points s).means =
      (nextRound A point points s).clusters.map (clusterMean A point) := rfl
  rw [hmeans, List.length_map, hclusters]

theorem sized_of_reached {first : State ρ P} (hfirst : Sized k first)
    (h : Reached A point points deltaSquare first s) : Sized k s := by
  induction h with
  | start => exact hfirst
  | round before go ih => exact sized_nextRound ih

theorem means_ne_nil (hk : 0 < k) (h : Sized k s) : s.means ≠ [] := by
  intro hnil
  have hlength := h.means
  rw [hnil, List.length_nil] at hlength
  omega

/-- After a round the clusters partition the points, whatever they were before. -/
theorem nextRound_perm (hmax : ∀ p q, A.distanceSquare p q < A.max) (hk : 0 < k)
    (h : Sized k s) : (nextRound A point points s).clusters.flatten.Perm points := by
  have hlength : (s.clusters.map fun _ => ([] : List ρ)).length = s.means.length := by
    rw [List.length_map, h.clusters, h.means]
  have hperm : (nextRound A point points s).clusters.flatten.Perm _ :=
    assignAll_perm hmax (means_ne_nil hk h) hlength points
  have hempty : (s.clusters.map fun _ => ([] : List ρ)).flatten = [] := by simp
  rw [hempty, List.nil_append] at hperm
  exact hperm

theorem nextRound_get (h : Sized k s) {i : ℕ} (hi : i < k) :
    (nextRound A point points s).clusters[i]? =
      some (points.filter fun r => nearest A s.means (point r) == i) := by
  have hlength : i < (s.clusters.map fun _ => ([] : List ρ)).length := by
    rw [List.length_map, h.clusters]
    exact hi
  have hget : (assignAll A point s.means _ points)[i]? = some _ := assignAll_get points hlength
  rw [nextRound, hget]
  simp

/-- A round divides by positive numbers exactly when every mean is chosen for a point. -/
theorem nextRound_nonempty_iff (h : Sized k s) :
    (∀ c ∈ (nextRound A point points s).clusters, 0 < c.length) ↔
      Covered A point points s.means := by
  have hclusters : (nextRound A point points s).clusters.length = k := (sized_nextRound h).clusters
  constructor
  · intro hpositive i hi
    rw [h.means] at hi
    have hcluster : (nextRound A point points s).clusters[i]? = some _ := nextRound_get h hi
    have hmem := List.mem_of_getElem? hcluster
    obtain ⟨r, hr⟩ := List.exists_mem_of_length_pos (hpositive _ hmem)
    rw [List.mem_filter, beq_iff_eq, nearest_eq_iff] at hr
    exact ⟨r, hr.1, hr.2⟩
  · intro hcovered c hc
    obtain ⟨i, hi, hget⟩ := List.getElem_of_mem hc
    have hik : i < k := by omega
    obtain ⟨r, hr, hchosen⟩ := hcovered i (by rw [h.means]; exact hik)
    have hcluster : (nextRound A point points s).clusters[i]? = some _ := nextRound_get h hik
    rw [List.getElem?_eq_getElem hi, hget, Option.some.injEq] at hcluster
    rw [hcluster]
    apply List.length_pos_of_mem (a := r)
    rw [List.mem_filter, beq_iff_eq, nearest_eq_iff]
    exact ⟨hr, hchosen⟩

/-- Once the clusters partition the points they do so at the end of the run. -/
theorem loop_perm (hmax : ∀ p q, A.distanceSquare p q < A.max) (hk : 0 < k) {fuel : ℕ}
    (h : Sized k s) (hperm : s.clusters.flatten.Perm points)
    (hloop : loop A point points deltaSquare fuel s = some s') :
    s'.clusters.flatten.Perm points := by
  induction fuel generalizing s with
  | zero => cases hloop
  | succ fuel ih =>
    rw [loop] at hloop
    split_ifs at hloop with hclose
    · cases hloop
      exact hperm
    · exact ih (sized_nextRound h) (nextRound_perm hmax hk h) hloop

/-- The first test compares the initial means with default points. -/
theorem start_close_iff (h : means.length = k) :
    isAllMeansCloseEnough A deltaSquare (start (ρ := ρ) A k means) = true ↔
      ∀ m ∈ means, A.distanceSquare m A.zero < deltaSquare := by
  subst h
  rw [isAllMeansCloseEnough, start, List.all_eq_true]
  dsimp only
  induction means with
  | nil => simp
  | cons m means ih =>
    rw [List.length_cons, List.replicate_succ, List.zip_cons_cons, List.forall_mem_cons,
      List.forall_mem_cons, ih]
    simp

theorem loop_of_near (hmeans : means.length = k) {fuel : ℕ}
    (hnear : ∀ m ∈ means, A.distanceSquare m A.zero < deltaSquare)
    (hloop : loop A point points deltaSquare fuel (start A k means) = some s') :
    s'.clusters.flatten = [] := by
  have hclose := (start_close_iff (ρ := ρ) (A := A) hmeans).mpr hnear
  cases fuel with
  | zero => cases hloop
  | succ fuel =>
    rw [loop, if_pos hclose] at hloop
    cases hloop
    simp [start]

theorem loop_of_far (hmax : ∀ p q, A.distanceSquare p q < A.max) (hk : 0 < k)
    (hmeans : means.length = k) {fuel : ℕ}
    (hfar : ∃ m ∈ means, deltaSquare ≤ A.distanceSquare m A.zero)
    (hloop : loop A point points deltaSquare fuel (start A k means) = some s') :
    s'.clusters.flatten.Perm points := by
  have hsized := sized_start (ρ := ρ) (A := A) hmeans
  have hopen : ¬ isAllMeansCloseEnough A deltaSquare (start (ρ := ρ) A k means) = true := by
    rw [start_close_iff hmeans]
    intro hnear
    obtain ⟨m, hm, hfar⟩ := hfar
    exact absurd (hnear m hm) (not_lt.mpr hfar)
  cases fuel with
  | zero => cases hloop
  | succ fuel =>
    rw [loop, if_neg hopen] at hloop
    exact loop_perm hmax hk (sized_nextRound hsized) (nextRound_perm hmax hk hsized) hloop

/-- A run that returns keeps all points when a first mean is not near the default point, and
loses all of them otherwise. -/
theorem loop_perm_iff (hmax : ∀ p q, A.distanceSquare p q < A.max) (hk : 0 < k)
    (hne : points ≠ []) (hmeans : means.length = k) {fuel : ℕ}
    (hloop : loop A point points deltaSquare fuel (start A k means) = some s') :
    s'.clusters.flatten.Perm points ↔ ∃ m ∈ means, deltaSquare ≤ A.distanceSquare m A.zero := by
  constructor
  · intro hperm
    by_contra hnone
    have hnear : ∀ m ∈ means, A.distanceSquare m A.zero < deltaSquare := by
      intro m hm
      by_contra hlt
      exact hnone ⟨m, hm, not_lt.mp hlt⟩
    rw [loop_of_near hmeans hnear hloop] at hperm
    exact hne hperm.nil_eq.symm
  · intro hfar
    exact loop_of_far hmax hk hmeans hfar hloop

end Rounds

/-- Integers, with the squared distance up to 99. -/
def integers : Arithmetic ℤ ℕ where
  zero := 0
  add := (· + ·)
  divide p n := p / n
  distanceSquare p q := Nat.min ((p - q).natAbs * (p - q).natAbs) 99
  max := 100
  uninitialised _ _ := 0

theorem integers_below (p q : ℤ) : integers.distanceSquare p q < integers.max :=
  Nat.lt_of_le_of_lt (Nat.min_le_right _ 99) (by decide)

end PrivacyComputing.Hpda.Kmeans
