import Mathlib.Logic.Function.Basic
import PrivacyComputing.BytesOrder
import PrivacyComputing.MemoryLayout

/-! `bytes` objects: the owned buffer and the size are two fields, and each construction and
assignment updates them in its own way. A copy from a buffer shorter than asked has no result.
A new array holds what memory held, so its contents are given by the caller or overwritten. -/
namespace PrivacyComputing.BytesObjects
open BufferWindow

structure Object where
  mValue : Option Bytes
  mSize : ℕ
  deriving DecidableEq, Repr

/-- The bytes that can be read from `data()`: none from a null pointer. -/
def Object.buffer (o : Object) : Bytes := o.mValue.getD []

def memcpy (array : Bytes) (offset : ℕ) (data : Bytes) (n : ℕ) : Option Bytes :=
  (peek data 0 n).bind (poke array offset)

def newArray (n : ℕ) : Bytes := List.replicate n 0

def construct : Object := ⟨none, 0⟩

def constructSized (contents : Bytes) : Object := ⟨some contents, contents.length⟩

/-- From a list, a pointer with a length, or a character string. -/
def constructArray (v : Bytes) : Object :=
  if v.length > 0 then ⟨some v, v.length⟩ else ⟨none, v.length⟩

def copyConstruct (v : Object) : Option Object := do
  let value ← memcpy (newArray v.mSize) 0 v.buffer v.mSize
  return ⟨some value, v.mSize⟩

/-- Inside the constructor the parameter is a name, so the copy constructor of the base runs. -/
def moveConstruct (v : Object) : Option Object := copyConstruct v

/-- Assignment from another object: without a buffer in `v` only the size changes. -/
def copyAssign (o v : Object) : Option Object := do
  match v.mValue with
  | some _ =>
    let value ← memcpy (newArray v.mSize) 0 v.buffer v.mSize
    return ⟨some value, v.mSize⟩
  | none => return { o with mSize := v.mSize }

/-- What the moved-from object is left with: the pointer is gone and the size stays. -/
def Object.moved (v : Object) : Object := { v with mValue := none }

def operatorEq (o v : Object) : Option Bool :=
  if v.mSize ≠ o.mSize then some false
  else (BytesOrder.memcmpWithin o.mSize v.buffer o.buffer).map (· == .eq)

/-- The right operand of `operator+`. -/
inductive Operand (ι : Type*)
  | object (j : ι)
  | chars (s : Option Bytes)
  | string (s : Bytes)

def copyPart (array : Bytes) (offset : ℕ) (data : Bytes) (n : ℕ) : Option Bytes :=
  if n ≠ 0 then memcpy array offset data n else some array

/-- `ret(size)`, then both parts, each only when it is not empty. -/
def join (o : Object) (data : Bytes) (n : ℕ) : Option Object := do
  let ret ← copyPart (newArray (o.mSize + n)) 0 o.buffer o.mSize
  let ret ← copyPart ret o.mSize data n
  return ⟨some ret, o.mSize + n⟩

/-- The buffer holds as many bytes as the size says. -/
def Object.Valid (o : Object) : Prop := o.mSize ≤ o.buffer.length

def Object.contents (o : Object) : Bytes := o.buffer.take o.mSize

section Store
variable {ι : Type*} [DecidableEq ι]

def plus (s : ι → Object) (o : Object) : Operand ι → Option Object
  | .object j => join o (s j).buffer (s j).mSize
  | .chars none => copyConstruct o
  | .chars (some text) => join o text text.length
  | .string text => if text.isEmpty then copyConstruct o else join o text text.length

/-- `operator+=` is `assignSum i i t`. -/
inductive Call (ι : Type*)
  | construct (i : ι)
  | constructSized (i : ι) (contents : Bytes)
  | constructArray (i : ι) (v : Bytes)
  | copyConstruct (i j : ι)
  | moveConstruct (i j : ι)
  | constructSum (i j : ι) (t : Operand ι)
  | copyAssign (i j : ι)
  | moveAssign (i j : ι)
  | assignSum (i j : ι) (t : Operand ι)

/-- An assignment from a temporary moves it; the temporary is gone afterwards. Moving an object
into itself gives its `unique_ptr` the pointer it had. -/
def step (s : ι → Object) : Call ι → Option (ι → Object)
  | .construct i => some (Function.update s i construct)
  | .constructSized i contents => some (Function.update s i (constructSized contents))
  | .constructArray i v => some (Function.update s i (constructArray v))
  | .copyConstruct i j => (copyConstruct (s j)).map (Function.update s i)
  | .moveConstruct i j => (moveConstruct (s j)).map (Function.update s i)
  | .constructSum i j t => (plus s (s j) t).map (Function.update s i)
  | .copyAssign i j => if i = j then some s else (copyAssign (s i) (s j)).map (Function.update s i)
  | .moveAssign i j =>
    if i = j then some s
    else some (Function.update (Function.update s j (s j).moved) i (s j))
  | .assignSum i j t => (plus s (s j) t).map (Function.update s i)

def Operand.contents (s : ι → Object) : Operand ι → Bytes
  | .object j => (s j).contents
  | .chars text => text.getD []
  | .string text => text

/-- What a call promises about its target: a copy equals its source, and what was assigned to
holds the assigned contents and no others. -/
def Kept (s s' : ι → Object) : Call ι → Prop
  | .copyConstruct i j | .moveConstruct i j => operatorEq (s' i) (s' j) = some true
  | .copyAssign i j =>
    operatorEq (s' i) (s' j) = some true ∧ (s' i).contents = (s j).contents
  | .moveAssign i j => (s' i).contents = (s j).contents
  | .assignSum i j t => (s' i).contents = (s j).contents ++ t.contents s
  | _ => True

/-- Along the calls no copy leaves a buffer, every object stays valid and every call keeps its
promise. -/
def Sound (s : ι → Object) : List (Call ι) → Prop
  | [] => ∀ i, (s i).Valid
  | c :: calls => (∀ i, (s i).Valid) ∧ ∃ s', step s c = some s' ∧ Kept s s' c ∧ Sound s' calls

/-- A named object is moved from by assignment only when it is empty, or into itself. -/
def MovesEmpty (s : ι → Object) : Call ι → Prop
  | .moveAssign i j => i = j ∨ (s j).mSize = 0
  | _ => True

def Careful (s : ι → Object) : List (Call ι) → Prop
  | [] => True
  | c :: calls => MovesEmpty s c ∧ ∀ s', step s c = some s' → Careful s' calls

end Store

theorem contents_length {o : Object} (h : o.Valid) : o.contents.length = o.mSize := by
  rw [Object.contents, List.length_take]
  exact Nat.min_eq_left h

theorem construct_valid : construct.Valid := Nat.zero_le _

theorem constructSized_valid (contents : Bytes) : (constructSized contents).Valid :=
  Nat.le_refl _

@[simp] theorem constructSized_contents (contents : Bytes) :
    (constructSized contents).contents = contents := List.take_length

theorem constructArray_valid (v : Bytes) : (constructArray v).Valid := by
  unfold constructArray
  split_ifs with hlen
  · exact Nat.le_refl _
  · simp only [Object.Valid]
    omega

theorem moved_valid {v : Object} (h : v.mSize = 0) : v.moved.Valid := by
  simp [Object.Valid, Object.moved, h]

theorem memcpy_append (before window after : Bytes) {data : Bytes} {offset n : ℕ}
    (hoffset : before.length = offset) (hwindow : window.length = n) (hn : n ≤ data.length) :
    memcpy (before ++ window ++ after) offset data n = some (before ++ data.take n ++ after) := by
  have hpeek : peek data 0 n = some (data.take n) := by simp [peek, hn]
  rw [memcpy, hpeek, Option.bind_some]
  exact poke_append before window after hoffset (by simp [hwindow, hn])

theorem memcpy_whole {data : Bytes} {n : ℕ} (hn : n ≤ data.length) :
    memcpy (newArray n) 0 data n = some (data.take n) := by
  have h := memcpy_append [] (newArray n) [] rfl List.length_replicate hn
  simpa using h

theorem copyConstruct_of_valid {v : Object} (h : v.Valid) :
    copyConstruct v = some (constructSized v.contents) := by
  rw [copyConstruct, memcpy_whole h, constructSized, contents_length h]
  rfl

theorem copyAssign_of_valid (o : Object) {v : Object} (h : v.Valid) :
    ∃ o', copyAssign o v = some o' ∧ o'.Valid ∧ o'.contents = v.contents := by
  cases hvalue : v.mValue with
  | some array =>
    refine ⟨constructSized v.contents, ?_, constructSized_valid _, constructSized_contents _⟩
    rw [copyAssign, hvalue]
    exact copyConstruct_of_valid h
  | none =>
    -- A valid object without a buffer is empty, and so is the target afterwards.
    have hsize : v.mSize = 0 := by simpa [Object.Valid, Object.buffer, hvalue] using h
    refine ⟨{ o with mSize := v.mSize }, ?_, ?_, ?_⟩
    · rw [copyAssign, hvalue]
      rfl
    · simp [Object.Valid, hsize]
    · simp [Object.contents, hsize]

theorem copyPart_append (before window after : Bytes) {data : Bytes} {offset n : ℕ}
    (hoffset : before.length = offset) (hwindow : window.length = n) (hn : n ≤ data.length) :
    copyPart (before ++ window ++ after) offset data n =
      some (before ++ data.take n ++ after) := by
  by_cases hzero : n = 0
  · subst hzero
    simp [copyPart, List.eq_nil_of_length_eq_zero hwindow]
  · rw [copyPart, if_pos hzero]
    exact memcpy_append before window after hoffset hwindow hn

theorem join_of_valid {o : Object} (h : o.Valid) {data : Bytes} {n : ℕ} (hn : n ≤ data.length) :
    join o data n = some (constructSized (o.contents ++ data.take n)) := by
  have hsplit : newArray (o.mSize + n) = newArray o.mSize ++ newArray n :=
    List.replicate_add ..
  have hfirst := copyPart_append [] (newArray o.mSize) (newArray n) rfl List.length_replicate h
  have hsecond := copyPart_append o.contents (newArray n) [] (contents_length h)
    List.length_replicate hn
  rw [List.nil_append, List.nil_append, List.length_nil, ← hsplit] at hfirst
  rw [List.append_nil, List.append_nil] at hsecond
  have hlen : o.mSize + n = (o.contents ++ data.take n).length := by
    simp [contents_length h, hn]
  rw [join, hfirst, Option.bind_eq_bind, Option.bind_some, ← Object.contents, hsecond,
    Option.bind_some, hlen]
  rfl

theorem memcmp_eq_of_take {n : ℕ} {a b : Bytes} (h : a.take n = b.take n) :
    Analyzer.memcmp n a b = .eq := by
  induction n generalizing a b with
  | zero => rfl
  | succ n ih =>
    cases a with
    | nil => cases b <;> rfl
    | cons x xs =>
      cases b with
      | nil => rfl
      | cons y ys =>
        rw [List.take_succ_cons, List.take_succ_cons, List.cons.injEq] at h
        rw [Analyzer.memcmp, h.1]
        simp [UInt8.lt_irrefl, ih h.2]

theorem operatorEq_of_contents {o v : Object} (ho : o.Valid) (hv : v.Valid)
    (h : o.contents = v.contents) : operatorEq o v = some true := by
  have hsize : v.mSize = o.mSize := by rw [← contents_length hv, ← contents_length ho, h]
  have hwithin : o.mSize ≤ v.buffer.length ∧ o.mSize ≤ o.buffer.length := ⟨hsize ▸ hv, ho⟩
  have htake : v.buffer.take o.mSize = o.buffer.take o.mSize := by
    rw [Object.contents, Object.contents, hsize] at h
    exact h.symm
  rw [operatorEq, if_neg (not_not.mpr hsize), BytesOrder.memcmpWithin, if_pos hwithin,
    memcmp_eq_of_take htake]
  rfl

section Runs
variable {ι : Type*} {s s' : ι → Object} {c : Call ι}

theorem plus_of_valid (hs : ∀ i, (s i).Valid) {o : Object} (ho : o.Valid) (t : Operand ι) :
    plus s o t = some (constructSized (o.contents ++ t.contents s)) := by
  cases t with
  | object j => exact join_of_valid ho (hs j)
  | chars text =>
    cases text with
    | none =>
      rw [plus, copyConstruct_of_valid ho]
      simp [Operand.contents]
    | some text =>
      rw [plus, join_of_valid ho (Nat.le_refl _), List.take_length]
      rfl
  | string text =>
    cases text with
    | nil =>
      rw [plus, List.isEmpty_nil, if_pos rfl, copyConstruct_of_valid ho]
      simp [Operand.contents]
    | cons x xs =>
      rw [plus, List.isEmpty_cons, if_neg (by simp), join_of_valid ho (Nat.le_refl _),
        List.take_length]
      rfl

variable [DecidableEq ι]

theorem update_valid (hs : ∀ i, (s i).Valid) {o : Object} (ho : o.Valid) (i k : ι) :
    (Function.update s i o k).Valid := by
  by_cases hki : k = i
  · rw [hki, Function.update_self]
    exact ho
  · rw [Function.update_of_ne hki]
    exact hs k

/-- The target of a copy equals its source, also when the source was replaced by it. -/
theorem operatorEq_copied (hs : ∀ i, (s i).Valid) {o : Object} (ho : o.Valid) (i j : ι)
    (h : o.contents = (s j).contents) :
    operatorEq (Function.update s i o i) (Function.update s i o j) = some true := by
  apply operatorEq_of_contents (update_valid hs ho i i) (update_valid hs ho i j)
  rw [Function.update_self]
  by_cases hji : j = i
  · rw [hji, Function.update_self]
  · rw [Function.update_of_ne hji, h]

theorem step_copyConstruct (hs : ∀ i, (s i).Valid) (i j : ι) :
    ∃ s', (copyConstruct (s j)).map (Function.update s i) = some s' ∧ (∀ i, (s' i).Valid) ∧
      operatorEq (s' i) (s' j) = some true := by
  have hvalid := constructSized_valid (s j).contents
  refine ⟨Function.update s i (constructSized (s j).contents), ?_, update_valid hs hvalid i, ?_⟩
  · rw [copyConstruct_of_valid (hs j), Option.map_some]
  · exact operatorEq_copied hs hvalid i j (constructSized_contents _)

theorem step_sum (hs : ∀ i, (s i).Valid) (i j : ι) (t : Operand ι) :
    ∃ s', (plus s (s j) t).map (Function.update s i) = some s' ∧ (∀ i, (s' i).Valid) ∧
      (s' i).contents = (s j).contents ++ t.contents s := by
  refine ⟨_, by rw [plus_of_valid hs (hs j) t, Option.map_some],
    update_valid hs (constructSized_valid _) i, ?_⟩
  rw [Function.update_self, constructSized_contents]

/-- One call on valid objects that moves no contents out of a named object. -/
theorem step_of_valid (hs : ∀ i, (s i).Valid) (hc : MovesEmpty s c) :
    ∃ s', step s c = some s' ∧ (∀ i, (s' i).Valid) ∧ Kept s s' c := by
  cases c with
  | construct i => exact ⟨_, rfl, update_valid hs construct_valid i, trivial⟩
  | constructSized i contents =>
    exact ⟨_, rfl, update_valid hs (constructSized_valid contents) i, trivial⟩
  | constructArray i v => exact ⟨_, rfl, update_valid hs (constructArray_valid v) i, trivial⟩
  | copyConstruct i j => exact step_copyConstruct hs i j
  | moveConstruct i j => exact step_copyConstruct hs i j
  | constructSum i j t =>
    obtain ⟨s', hstep, hvalid, -⟩ := step_sum hs i j t
    exact ⟨s', hstep, hvalid, trivial⟩
  | copyAssign i j =>
    by_cases hij : i = j
    · subst hij
      exact ⟨s, if_pos rfl, hs, operatorEq_of_contents (hs i) (hs i) rfl, rfl⟩
    · obtain ⟨o, hcopy, hvalid, hcontents⟩ := copyAssign_of_valid (s i) (hs j)
      refine ⟨Function.update s i o, ?_, update_valid hs hvalid i,
        operatorEq_copied hs hvalid i j hcontents, ?_⟩
      · rw [step, if_neg hij, hcopy, Option.map_some]
      · rw [Function.update_self, hcontents]
  | moveAssign i j =>
    by_cases hij : i = j
    · subst hij
      exact ⟨s, if_pos rfl, hs, rfl⟩
    · have hsize := hc.resolve_left hij
      refine ⟨_, if_neg hij, ?_, ?_⟩
      · exact update_valid (update_valid hs (moved_valid hsize) j) (hs j) i
      · rw [Kept, Function.update_self]
  | assignSum i j t => exact step_sum hs i j t

/-- An object moved into another one keeps its size without a buffer. -/
theorem movesEmpty_of_step (hstep : step s c = some s') (hs' : ∀ i, (s' i).Valid) :
    MovesEmpty s c := by
  cases c with
  | moveAssign i j =>
    by_cases hij : i = j
    · exact Or.inl hij
    · rw [step, if_neg hij, Option.some.injEq] at hstep
      have hmoved := hs' j
      rw [← hstep, Function.update_of_ne (Ne.symm hij), Function.update_self] at hmoved
      exact Or.inr (Nat.le_zero.mp hmoved)
  | construct i => trivial
  | constructSized i contents => trivial
  | constructArray i v => trivial
  | copyConstruct i j => trivial
  | moveConstruct i j => trivial
  | constructSum i j t => trivial
  | copyAssign i j => trivial
  | assignSum i j t => trivial

theorem sound_valid {calls : List (Call ι)} (h : Sound s calls) : ∀ i, (s i).Valid := by
  cases calls with
  | nil => exact h
  | cons c calls => exact h.1

theorem sound_iff_careful_of_valid (hs : ∀ i, (s i).Valid) (calls : List (Call ι)) :
    Sound s calls ↔ Careful s calls := by
  induction calls generalizing s with
  | nil => exact ⟨fun _ => trivial, fun _ => hs⟩
  | cons c calls ih =>
    constructor
    · intro hsound
      obtain ⟨-, s', hstep, -, hrest⟩ := hsound
      have hs' := sound_valid hrest
      refine ⟨movesEmpty_of_step hstep hs', fun t ht => ?_⟩
      rw [hstep, Option.some.injEq] at ht
      subst ht
      exact (ih hs').mp hrest
    · intro hcareful
      obtain ⟨s', hstep, hs', hkept⟩ := step_of_valid hs hcareful.1
      exact ⟨hs, s', hstep, hkept, (ih hs').mpr (hcareful.2 s' hstep)⟩

/-- Whatever the calls on objects that begin empty: they are sound exactly when no named object
with contents is moved into another one. -/
theorem sound_iff_careful (calls : List (Call ι)) :
    Sound (fun _ : ι => construct) calls ↔ Careful (fun _ => construct) calls :=
  sound_iff_careful_of_valid (fun _ => construct_valid) calls

end Runs

/-- `a = "ab"; c = "xyz"; b = std::move(a); c = a;` -/
def movedFrom : List (Call ℕ) :=
  [.constructArray 0 [97, 98], .constructArray 2 [120, 121, 122], .moveAssign 1 0,
    .copyAssign 2 0]

/-- The moved-from object claims two bytes it does not have, the one assigned from it shows two
of its own, and a copy of it reads from null. -/
theorem moved_from_not_sound :
    (movedFrom.foldlM step fun _ => construct).map (fun s => (s 0, (s 2).contents)) =
      some (⟨none, 2⟩, [120, 121]) ∧
    ((movedFrom ++ [Call.copyConstruct 3 0]).foldlM step fun _ => construct).isNone = true ∧
    ¬ Sound (fun _ => construct) movedFrom := by
  refine ⟨by decide, by decide, ?_⟩
  intro hsound
  have hcareful := (sound_iff_careful_of_valid (fun _ => construct_valid) movedFrom).mp hsound
  have hmove := ((hcareful.2 _ rfl).2 _ rfl).1
  rcases hmove with h | h
  · cases h
  · cases h

end PrivacyComputing.BytesObjects
