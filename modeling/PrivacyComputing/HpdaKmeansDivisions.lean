import Mathlib.Data.List.Nodup
import PrivacyComputing.HpdaKmeans

/-! The divisions of `loyd_impl`: a mean that is chosen for no point of the input has an empty
cluster, and its average is a division by zero. -/
namespace PrivacyComputing.Hpda.Kmeans

universe u v w

section Divisions
variable {ρ : Type w} {P : Type u} {D : Type v} [LinearOrder D]
  {A : Arithmetic P D} {point : ρ → P} {points : List ρ} {k : ℕ}

/-- In every round of a run from these means `p / m_clusters[i].size()` has a positive divisor. -/
def PositiveDivisions (A : Arithmetic P D) (point : ρ → P) (points : List ρ) (deltaSquare : D)
    (k : ℕ) (means : List P) : Prop :=
  ∀ s, Reached A point points deltaSquare (start A k means) s →
    isAllMeansCloseEnough A deltaSquare s = false →
    ∀ c ∈ (nextRound A point points s).clusters, 0 < c.length

theorem evenK_length (hne : points ≠ []) (k : ℕ) : (evenK point points k).length = k := by
  have hlength := List.length_pos_iff.mpr hne
  have hall : ∀ i ∈ List.range k,
      ((points[points.length / k * i % points.length]?).map point).isSome = true := by
    intro i _
    rw [Option.isSome_map, List.getElem?_eq_getElem (Nat.mod_lt _ hlength), Option.isSome_some]
  have hfilter := List.filterMap_length_eq_length.mpr hall
  rw [List.length_range] at hfilter
  exact hfilter

/-- With fewer points than means every mean is the first point. -/
theorem evenK_few (hne : points ≠ []) (hfew : points.length < k) :
    evenK point points k = List.replicate k (point (points.head hne)) := by
  have hlength := List.length_pos_iff.mpr hne
  have hzero : points.length / k = 0 := Nat.div_eq_of_lt hfew
  rw [List.eq_replicate_iff]
  refine ⟨evenK_length hne k, fun p hp => ?_⟩
  obtain ⟨i, -, hi⟩ := List.mem_filterMap.mp hp
  rw [hzero, Nat.zero_mul, Nat.zero_mod, List.getElem?_eq_getElem hlength, Option.map_some,
    Option.some.injEq, List.getElem_zero] at hi
  exact hi.symm

theorem positiveDivisions_iff_covered {means : List P} (hmeans : means.length = k)
    (deltaSquare : D) :
    PositiveDivisions A point points deltaSquare k means ↔
      ∀ s, Reached A point points deltaSquare (start A k means) s →
        isAllMeansCloseEnough A deltaSquare s = false → Covered A point points s.means := by
  have hround : ∀ s, Reached A point points deltaSquare (start A k means) s →
      ((∀ c ∈ (nextRound A point points s).clusters, 0 < c.length) ↔
        Covered A point points s.means) := by
    intro s hs
    exact nextRound_nonempty_iff (sized_of_reached (sized_start hmeans) hs)
  constructor
  · intro hpositive s hs hgo
    exact (hround s hs).mp (hpositive s hs hgo)
  · intro hcovered s hs hgo
    exact (hround s hs).mpr (hcovered s hs hgo)

/-- A run from the means of `even_k` never divides by zero exactly when before each of its rounds
every mean is the one chosen for some point of the input. -/
theorem positiveDivisions_iff [Mul D] (hne : points ≠ []) (k : ℕ) (delta : D) :
    PositiveDivisions A point points (delta * delta) k (evenK point points k) ↔
      ∀ s, Reached A point points (delta * delta) (start A k (evenK point points k)) s →
        isAllMeansCloseEnough A (delta * delta) s = false → Covered A point points s.means :=
  positiveDivisions_iff_covered (evenK_length hne k) (delta * delta)

section Bounded
variable (hmax : ∀ p q, A.distanceSquare p q < A.max)
include hmax

/-- Of two equal means the later one is never chosen. -/
theorem not_covered_of_equal {means : List P} {i j : ℕ} (hij : i < j) (hj : j < means.length)
    (hequal : means.get ⟨i, Nat.lt_trans hij hj⟩ = means.get ⟨j, hj⟩) :
    ¬ Covered A point points means := by
  intro hcovered
  obtain ⟨r, -, hchosen⟩ := hcovered j hj
  have hne : means ≠ [] := List.ne_nil_of_length_pos (Nat.lt_of_le_of_lt (Nat.zero_le j) hj)
  obtain ⟨hlt, hbefore, -⟩ := (chosen_iff_attracts hmax hne j).mp hchosen
  have hfirst := hbefore i hij
  rw [hequal] at hfirst
  exact lt_irrefl _ hfirst

/-- Two of the first means are equal and the first test fails: the first round divides by zero. -/
theorem equal_means_divide_by_zero {means : List P} (hmeans : means.length = k) {deltaSquare : D}
    {i j : ℕ} (hij : i < j) (hj : j < means.length)
    (hequal : means.get ⟨i, Nat.lt_trans hij hj⟩ = means.get ⟨j, hj⟩)
    (hgo : isAllMeansCloseEnough A deltaSquare (start (ρ := ρ) A k means) = false) :
    ¬ PositiveDivisions A point points deltaSquare k means := by
  rw [positiveDivisions_iff_covered hmeans]
  intro hcovered
  exact not_covered_of_equal hmax hij hj hequal (hcovered _ .start hgo)

/-- Where a point is strictly nearest to itself, the means picked among the points are all chosen
exactly when they are different. -/
theorem covered_evenK_iff (hself : ∀ p q, p ≠ q → A.distanceSquare p p < A.distanceSquare p q) :
    Covered A point points (evenK point points k) ↔ (evenK point points k).Nodup := by
  constructor
  · intro hcovered
    rw [List.nodup_iff_injective_get]
    intro i j hij
    by_contra hne
    rcases Nat.lt_or_gt_of_ne (Fin.val_ne_of_ne hne) with h | h
    · exact not_covered_of_equal hmax h j.isLt hij hcovered
    · exact not_covered_of_equal hmax h i.isLt hij.symm hcovered
  · intro hnodup i hi
    obtain ⟨l, -, hl⟩ := List.mem_filterMap.mp (List.get_mem (evenK point points k) ⟨i, hi⟩)
    rw [Option.map_eq_some_iff] at hl
    obtain ⟨r, hr, hmean⟩ := hl
    have hmeans : evenK point points k ≠ [] := List.ne_nil_of_mem (List.get_mem _ ⟨i, hi⟩)
    refine ⟨r, List.mem_of_getElem? hr, (chosen_iff_attracts hmax hmeans i).mpr ?_⟩
    rw [hmean]
    refine ⟨hi, fun j hj => ?_, fun j hj => ?_⟩
    · apply hself
      intro heq
      have hfin := List.nodup_iff_injective_get.mp hnodup heq
      exact absurd (congrArg Fin.val hfin) (Nat.ne_of_gt hj)
    · by_cases heq : (evenK point points k).get ⟨i, hi⟩ = (evenK point points k).get ⟨j, hj⟩
      · rw [← heq]
      · exact le_of_lt (hself _ _ heq)

/-- The first round divides by zero exactly when two of the picked means are equal. -/
theorem first_round_positive_iff
    (hself : ∀ p q, p ≠ q → A.distanceSquare p p < A.distanceSquare p q) (hne : points ≠ []) :
    (∀ c ∈ (nextRound A point points (start A k (evenK point points k))).clusters,
      0 < c.length) ↔ (evenK point points k).Nodup := by
  rw [nextRound_nonempty_iff (sized_start (evenK_length hne k))]
  exact covered_evenK_iff hmax hself

/-- A single mean is chosen for every point, so the average of one cluster is always defined. -/
theorem single_mean_positive (hne : points ≠ []) (deltaSquare : D) :
    PositiveDivisions A point points deltaSquare 1 (evenK point points 1) := by
  have hmeans : (evenK point points 1).length = 1 := evenK_length hne 1
  rw [positiveDivisions_iff_covered hmeans]
  intro s hs _ i hi
  have hsized := sized_of_reached (sized_start hmeans) hs
  obtain ⟨r, hr⟩ := List.exists_mem_of_ne_nil points hne
  have hlt := nearest_lt hmax (means_ne_nil Nat.zero_lt_one hsized) (point r)
  have hindex : nearest A s.means (point r) = i := by
    rw [hsized.means] at hi hlt
    omega
  exact ⟨r, hr, (nearest_eq_iff _ _ i).mp hindex⟩

end Bounded
end Divisions

theorem positiveDivisions_iff_integers :
    PositiveDivisions integers id [1, 3] (1 * 1) 2 (evenK id [1, 3] 2) ↔
      ∀ s, Reached integers id [1, 3] (1 * 1) (start integers 2 (evenK id [1, 3] 2)) s →
        isAllMeansCloseEnough integers (1 * 1) s = false → Covered integers id [1, 3] s.means :=
  positiveDivisions_iff (by simp) 2 1

/-- Two equal points in two clusters: the second cluster is empty in the first round. -/
theorem duplicates_divide_by_zero :
    evenK id [1, 1] 2 = [1, 1] ∧
      (nextRound integers id [1, 1] (start integers 2 [1, 1])).clusters = [[1, 1], []] ∧
      ¬ PositiveDivisions integers id [1, 1] (1 * 1) 2 (evenK id [1, 1] 2) := by
  refine ⟨by decide, by decide, ?_⟩
  intro hpositive
  have hempty : [] ∈ (nextRound integers id [1, 1]
      (start integers 2 (evenK id [1, 1] 2))).clusters := by decide
  exact absurd (hpositive _ .start (by decide) [] hempty) (by decide)

end PrivacyComputing.Hpda.Kmeans
