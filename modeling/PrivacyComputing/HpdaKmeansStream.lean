import PrivacyComputing.HpdaKmeans

/-! `loyd_kmeans_impl`: the records that come in are collected up to `max_points` or the end of the
stream and clustered; the stream of clustered records is filled cluster by cluster. What a run of
`loyd_impl` has lost is not in the stream. -/
namespace PrivacyComputing.Hpda.Kmeans

universe u v w

/-- The members that `process` reads; the picker chooses the first means among the records. -/
structure Processor (ρ : Type w) (P : Type u) (D : Type v) where
  k : ℕ
  delta : D
  maxPoints : ℕ
  picker : List ρ → ℕ → List P

/-- What one call leaves: the value returned, the collected records, and what is added to
`data_with_cluster_stream` and `means_stream`. -/
structure Called (ρ : Type w) (P : Type u) where
  returned : Bool
  allPoints : List ρ
  clusterStream : List (ρ × ℕ)
  meansStream : List (ℕ × P)

section Code
variable {ρ : Type w} {P : Type u} {D : Type v} [LinearOrder D] [Mul D]
  (A : Arithmetic P D) (point : ρ → P) (K : Processor ρ P D) (fuel : ℕ)

/-- The records of the clusters with the number of their cluster. -/
def classified (clusters : List (List ρ)) : List (ρ × ℕ) :=
  clusters.zipIdx.flatMap fun c => c.1.map fun r => (r, c.2)

/-- Without a result `run` has thrown or is not over. -/
def calculate (allPoints : List ρ) : Option (Called ρ P) :=
  match run A point allPoints K.k K.delta fuel (K.picker allPoints K.k) with
  | .ok (some s) =>
    some ⟨true, [], classified s.clusters, s.means.zipIdx.map fun m => (m.2, m.1)⟩
  | _ => none

def process (allPoints : List ρ) : Option ρ → Option (Called ρ P)
  | some x =>
    let allPoints := allPoints ++ [x]
    if allPoints.length < K.maxPoints then some ⟨false, allPoints, [], []⟩
    else calculate A point K fuel allPoints
  | none =>
    if allPoints.length = 0 then some ⟨false, allPoints, [], []⟩
    else calculate A point K fuel allPoints

/-- `data_with_cluster_stream` after a call for each of the inputs. -/
def session (allPoints : List ρ) : List (Option ρ) → Option (List (ρ × ℕ))
  | [] => some []
  | input :: inputs =>
    (process A point K fuel allPoints input).bind fun called =>
      (session called.allPoints inputs).map fun rest => called.clusterStream ++ rest

/-- The records that are clustered together, the first ones after those collected already. -/
def batchesFrom (maxPoints : ℕ) (allPoints : List ρ) : List ρ → List (List ρ)
  | [] => if allPoints.length = 0 then [] else [allPoints]
  | x :: xs =>
    if (allPoints ++ [x]).length < maxPoints then batchesFrom maxPoints (allPoints ++ [x]) xs
    else (allPoints ++ [x]) :: batchesFrom maxPoints [] xs

def batches (maxPoints : ℕ) (xs : List ρ) : List (List ρ) := batchesFrom maxPoints [] xs

/-- One of the first means is at least `delta` away from the default point. -/
def StartsFar (b : List ρ) : Prop :=
  ∃ m ∈ K.picker b K.k, K.delta * K.delta ≤ A.distanceSquare m A.zero

/-- A stream of records and its end, which is seen by one call or by more. -/
def inputs (xs : List ρ) (ends : ℕ) : List (Option ρ) :=
  xs.map some ++ List.replicate (ends + 1) none

end Code

section Stream
variable {ρ : Type w} {P : Type u} {D : Type v} [LinearOrder D] [Mul D]
  {A : Arithmetic P D} {point : ρ → P} {K : Processor ρ P D} {fuel : ℕ}

omit [LinearOrder D] in
theorem classified_records (clusters : List (List ρ)) :
    (classified clusters).map Prod.fst = clusters.flatten := by
  have hmap : ∀ c : List ρ × ℕ, (c.1.map fun r => (r, c.2)).map Prod.fst = c.1 := by
    intro c
    rw [List.map_map]
    exact List.map_id c.1
  rw [classified, List.map_flatMap]
  simp only [hmap]
  rw [List.flatMap_def, List.zipIdx_map_fst]

/-- What becomes of some records: all are in the stream if `kept` holds, and fewer otherwise. -/
structure Fate (out : List (ρ × ℕ)) (records : List ρ) (kept : Prop) : Prop where
  perm : kept → (out.map Prod.fst).Perm records
  length_le : out.length ≤ records.length
  complete : out.length = records.length → kept

theorem Fate.perm_iff {out : List (ρ × ℕ)} {records : List ρ} {kept : Prop}
    (h : Fate out records kept) : (out.map Prod.fst).Perm records ↔ kept := by
  constructor
  · intro hperm
    have hlength := hperm.length_eq
    rw [List.length_map] at hlength
    exact h.complete hlength
  · exact h.perm

theorem Fate.append {out out' : List (ρ × ℕ)} {records records' : List ρ} {kept kept' : Prop}
    (h : Fate out records kept) (h' : Fate out' records' kept') :
    Fate (out ++ out') (records ++ records') (kept ∧ kept') := by
  have hle := h.length_le
  have hle' := h'.length_le
  constructor
  · rintro ⟨hkept, hkept'⟩
    rw [List.map_append]
    exact (h.perm hkept).append (h'.perm hkept')
  · simp only [List.length_append]
    omega
  · intro hlength
    simp only [List.length_append] at hlength
    exact ⟨h.complete (by omega), h'.complete (by omega)⟩

theorem run_returned {k : ℕ} {delta : D} {points : List ρ} {means : List P} {s : State ρ P}
    (h : run A point points k delta fuel means = .ok (some s)) :
    means.length = k ∧ loop A point points (delta * delta) fuel (start A k means) = some s := by
  unfold run at h
  split_ifs at h with hlength
  simp only [Except.ok.injEq] at h
  exact ⟨not_not.mp hlength, h⟩

theorem calculate_returned {b : List ρ} {called : Called ρ P}
    (h : calculate A point K fuel b = some called) :
    ∃ s, run A point b K.k K.delta fuel (K.picker b K.k) = .ok (some s) ∧
      called.allPoints = [] ∧ called.clusterStream = classified s.clusters := by
  unfold calculate at h
  split at h
  · rename_i s hrun
    rw [Option.some.injEq] at h
    subst h
    exact ⟨s, hrun, rfl, rfl⟩
  · cases h

section Bounded
variable (hmax : ∀ p q, A.distanceSquare p q < A.max) (hk : 0 < K.k)
include hmax hk

theorem calculate_fate {b : List ρ} (hb : b ≠ []) {called : Called ρ P}
    (h : calculate A point K fuel b = some called) :
    called.allPoints = [] ∧ Fate called.clusterStream b (StartsFar A K b) := by
  obtain ⟨s, hrun, hpoints, hstream⟩ := calculate_returned h
  obtain ⟨hmeans, hloop⟩ := run_returned hrun
  refine ⟨hpoints, ?_⟩
  rw [hstream]
  by_cases hfar : StartsFar A K b
  · have hperm := loop_of_far hmax hk hmeans hfar hloop
    rw [← classified_records] at hperm
    have hlength := hperm.length_eq
    rw [List.length_map] at hlength
    exact ⟨fun _ => hperm, Nat.le_of_eq hlength, fun _ => hfar⟩
  · have hnear : ∀ m ∈ K.picker b K.k, A.distanceSquare m A.zero < K.delta * K.delta := by
      intro m hm
      by_contra hlt
      exact hfar ⟨m, hm, not_lt.mp hlt⟩
    have hlost := loop_of_near hmeans hnear hloop
    rw [← classified_records, List.map_eq_nil_iff] at hlost
    rw [hlost]
    refine ⟨fun hkept => absurd hkept hfar, Nat.zero_le _, fun hlength => ?_⟩
    exact absurd (List.eq_nil_of_length_eq_zero hlength.symm) hb

omit hmax hk in
theorem session_ended (n : ℕ) :
    session A point K fuel [] (List.replicate n none) = some [] := by
  induction n with
  | zero => rfl
  | succ n ih =>
    rw [List.replicate_succ, session, process]
    simp [ih]

/-- A batch is clustered, and the calls go on with nothing collected. -/
theorem session_batch {b : List ρ} (hb : b ≠ []) {rest : List (Option ρ)} {out : List (ρ × ℕ)}
    (h : ((calculate A point K fuel b).bind fun called =>
      (session A point K fuel called.allPoints rest).map fun more =>
        called.clusterStream ++ more) = some out) :
    ∃ first more, out = first ++ more ∧ Fate first b (StartsFar A K b) ∧
      session A point K fuel [] rest = some more := by
  rw [Option.bind_eq_some_iff] at h
  obtain ⟨called, hcalculate, hmore⟩ := h
  obtain ⟨hpoints, hfate⟩ := calculate_fate hmax hk hb hcalculate
  rw [hpoints, Option.map_eq_some_iff] at hmore
  obtain ⟨more, hsession, hout⟩ := hmore
  exact ⟨called.clusterStream, more, hout.symm, hfate, hsession⟩

/-- By induction on the records that are still to come. -/
theorem session_fate {allPoints xs : List ρ} {ends : ℕ} {out : List (ρ × ℕ)}
    (h : session A point K fuel allPoints (inputs xs ends) = some out) :
    Fate out (allPoints ++ xs)
      (∀ b ∈ batchesFrom K.maxPoints allPoints xs, StartsFar A K b) := by
  induction xs generalizing allPoints out with
  | nil =>
    rw [inputs, List.map_nil, List.nil_append, List.replicate_succ, session, process] at h
    rw [List.append_nil, batchesFrom]
    by_cases hempty : allPoints.length = 0
    · have hnil := List.eq_nil_of_length_eq_zero hempty
      subst hnil
      have hended : session A point K fuel [] (List.replicate ends none) = some [] :=
        session_ended ends
      rw [if_pos List.length_nil, Option.bind_some, hended, Option.map_some, Option.some.injEq] at h
      subst h
      exact ⟨fun _ => List.Perm.refl _, Nat.le_refl _, fun _ => by simp⟩
    · have hne : allPoints ≠ [] := fun hnil => hempty (by rw [hnil]; rfl)
      rw [if_neg hempty] at h
      obtain ⟨first, more, rfl, hfate, hsession⟩ := session_batch hmax hk hne h
      rw [session_ended, Option.some.injEq] at hsession
      subst hsession
      rw [if_neg hempty, List.append_nil, List.forall_mem_singleton]
      exact hfate
  | cons x xs ih =>
    have hinputs : inputs (x :: xs) ends = some x :: inputs xs ends := rfl
    have hrecords : allPoints ++ x :: xs = (allPoints ++ [x]) ++ xs := by simp
    rw [hinputs, session, process] at h
    rw [hrecords, batchesFrom]
    by_cases hmore : (allPoints ++ [x]).length < K.maxPoints
    · rw [if_pos hmore, Option.bind_some, Option.map_eq_some_iff] at h
      obtain ⟨rest, hsession, hout⟩ := h
      rw [if_pos hmore, ← hout]
      exact ih hsession
    · rw [if_neg hmore] at h
      obtain ⟨first, rest, rfl, hfate, hsession⟩ := session_batch hmax hk (by simp) h
      rw [if_neg hmore, List.forall_mem_cons]
      exact hfate.append (ih hsession)

/-- No point is lost: the clusters of a run that returns hold every point once exactly when one
of its first means is at least `delta` away from the default point, and every record is once in
the stream exactly when this holds for each batch. -/
theorem points_kept_iff :
    (∀ (points : List ρ) (means : List P) (s : State ρ P), points ≠ [] →
      run A point points K.k K.delta fuel means = .ok (some s) →
      (s.clusters.flatten.Perm points ↔
        ∃ m ∈ means, K.delta * K.delta ≤ A.distanceSquare m A.zero)) ∧
    ∀ (xs : List ρ) (ends : ℕ) (out : List (ρ × ℕ)),
      session A point K fuel [] (inputs xs ends) = some out →
      ((out.map Prod.fst).Perm xs ↔ ∀ b ∈ batches K.maxPoints xs, StartsFar A K b) := by
  constructor
  · intro points means s hne hrun
    obtain ⟨hmeans, hloop⟩ := run_returned hrun
    exact loop_perm_iff hmax hk hne hmeans hloop
  · intro xs ends out hsession
    exact (session_fate hmax hk hsession).perm_iff

end Bounded
end Stream

/-- Two clusters of integers, at most 100 at a time. -/
def twoClusters : Processor ℤ ℤ ℕ := ⟨2, 1, 100, evenK id⟩

theorem points_kept_iff_integers :
    (∀ (points means : List ℤ) (s : State ℤ ℤ), points ≠ [] →
      run integers id points 2 1 9 means = .ok (some s) →
      (s.clusters.flatten.Perm points ↔
        ∃ m ∈ means, 1 * 1 ≤ integers.distanceSquare m integers.zero)) ∧
    ∀ (xs : List ℤ) (ends : ℕ) (out : List (ℤ × ℕ)),
      session integers id twoClusters 9 [] (inputs xs ends) = some out →
      ((out.map Prod.fst).Perm xs ↔
        ∀ b ∈ batches twoClusters.maxPoints xs, StartsFar integers twoClusters b) :=
  points_kept_iff (K := twoClusters) integers_below (by decide)

def oneCluster : Processor ℤ ℤ ℕ := ⟨1, 1, 100, evenK id⟩

/-- The point zero lies on the default point, and no round is made. -/
theorem default_point_lost :
    (run integers id [0] 1 1 9 [0]).map (Option.map State.clusters) = .ok (some [[]]) ∧
      session integers id oneCluster 9 [] (inputs [0] 0) = some [] ∧
      ¬ ∀ out, session integers id oneCluster 9 [] (inputs [0] 0) = some out →
        (out.map Prod.fst).Perm [0] := by
  have hlost : session integers id oneCluster 9 [] (inputs [0] 0) = some [] := by decide
  refine ⟨rfl, hlost, ?_⟩
  intro hkept
  have hperm := hkept [] hlost
  exact absurd hperm.length_eq (by decide)

end PrivacyComputing.Hpda.Kmeans
