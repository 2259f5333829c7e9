import PrivacyComputing.HpdaStarRun
import PrivacyComputing.OrderedStreams

/-! The ordered set operators over `k` upper streams: one call reads the keys of the values in the
slots, takes the values with the least key and may fill the output record, which is the same one
for all rows. -/
namespace PrivacyComputing.Hpda.OrderedSets
open OrderedStreams

universe u

/-- A record gives a value to every column; an input stream uses only some of them. -/
abbrev Record {Col : Type u} (V : Col → Type u) : Type u := ∀ c, V c

variable {Col : Type u} [DecidableEq Col] {V : Col → Type u} {CT : Type u} [LinearOrder CT]
  {k : ℕ}

/-- What `add_upper_stream` registers: the columns of each input type, for its filler, and the key
column of each stream. -/
structure UpperStreams (k : ℕ) (V : Col → Type u) (CT : Type u) where
  columns : Fin k → List Col
  key : Fin k → Record V → CT

/-- `copy_helper`: the columns of the source are set in the target one after the other. -/
def copy (columns : List Col) (target source : Record V) : Record V :=
  columns.foldl (fun target c => Function.update target c (source c)) target

/-- `m_upper_streams[0]`. -/
def firstStream (h : 2 ≤ k) : Fin k := ⟨0, by omega⟩

section Process
variable (T : UpperStreams k V CT)

def hasIntersection (first : Fin k) (values : Fin k → Record V) : Bool :=
  (List.finRange k).all fun i => decide (T.key first (values first) = T.key i (values i))

/-- The least key of `next_value`. -/
def nextKey (first : Fin k) (values : Fin k → Record V) : CT :=
  (List.finRange k).foldl
    (fun val i => if T.key i (values i) < val then T.key i (values i) else val)
    (T.key first (values first))

def fillOutput (values : Fin k → Record V) (mData : Record V) : Record V :=
  (List.finRange k).foldl (fun mData i => copy (T.columns i) mData (values i)) mData

/-- `ordered_intersection_impl::process`. -/
def intersectionProcess (mData : Record V) (inputs : Fin k → Option (Record V)) :
    Bool × (Fin k → Bool) × Record V :=
  if h : 2 ≤ k ∧ ∀ i, (inputs i).isSome then
    let first := firstStream h.1
    let values i := (inputs i).get (h.2 i)
    let taken i := decide (nextKey T first values = T.key i (values i))
    if hasIntersection T first values then (true, taken, fillOutput T values mData)
    else (false, taken, mData)
  else (false, fun _ => false, mData)

/-- One turn of the first loop of `has_union`: the index and the value with the least key so
far. -/
def lower (inputs : Fin k → Option (Record V)) (least : Option (Fin k × Record V)) (i : Fin k) :
    Option (Fin k × Record V) :=
  match inputs i, least with
  | none, least => least
  | some x, none => some (i, x)
  | some x, some (index, y) => if T.key i x < T.key index y then some (i, x) else some (index, y)

def lowest (inputs : Fin k → Option (Record V)) : Option (Fin k × Record V) :=
  (List.finRange k).foldl (lower T inputs) none

/-- `ordered_union_impl::process`. -/
def unionProcess (mData : Record V) (inputs : Fin k → Option (Record V)) :
    Bool × (Fin k → Bool) × Record V :=
  if 2 ≤ k then
    match lowest T inputs with
    | none => (false, fun _ => false, mData)
    | some (index, x) =>
      let taken i := i = index || (inputs i).any fun y => decide (T.key i y = T.key index x)
      (true, taken, copy (T.columns index) mData x)
  else (false, fun _ => false, mData)

/-- The least key of `has_difference`. -/
def minKey (inputs : Fin k → Option (Record V)) (val : CT) : CT :=
  (List.finRange k).foldl
    (fun val i =>
      match inputs i with
      | none => val
      | some x => min val (T.key i x)) val

/-- `ordered_difference_impl::process`. -/
def differenceProcess (mData : Record V) (inputs : Fin k → Option (Record V)) :
    Bool × (Fin k → Bool) × Record V :=
  if h : 2 ≤ k then
    let first := firstStream h
    match inputs first with
    | none => (false, fun _ => false, mData)
    | some x =>
      let val := minKey T inputs (T.key first x)
      let others i := decide (i ≠ first) && (inputs i).any fun y => decide (T.key i y = val)
      if (List.finRange k).any others then
        (false, fun i => others i || (decide (i = first) && decide (T.key first x = val)), mData)
      else (true, fun i => decide (i = first), copy (T.columns first) mData x)
  else (false, fun _ => false, mData)

/-- An operator whose state is its output record. -/
def operator [∀ c, Inhabited (V c)]
    (process : Record V → (Fin k → Option (Record V)) → Bool × (Fin k → Bool) × Record V) :
    Star.Operator k (Record V) (Record V) where
  State := Record V
  start := fun _ => default
  process := process
  outputValue mData := mData

end Process

section Copy

lemma copy_apply (columns : List Col) (target source : Record V) (c : Col) :
    copy columns target source c = if c ∈ columns then source c else target c := by
  unfold copy
  induction columns generalizing target with
  | nil => simp
  | cons d columns ih =>
    rw [List.foldl_cons, ih]
    by_cases hc : c ∈ columns
    · simp [hc]
    · by_cases hd : c = d
      · subst hd
        simp [hc]
      · simp [hc, hd]

end Copy
end PrivacyComputing.Hpda.OrderedSets
