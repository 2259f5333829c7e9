import PrivacyComputing.HpdaStar

/-! Runs of the engine over upper streams and one operator. Before every call of the operator each
slot holds a value or its stream has ended; what the calls emit one after the other is what a run
leaves in the output. -/
namespace PrivacyComputing.Hpda.Star

universe u v

variable {k : ℕ} {β : Type u} {γ : Type v}

section Request

/-- What the engine asks for. -/
def isOpen (p : Bool × Status) : Bool := !p.1 && p.2 != .toP && p.2 != .ended

def ask (slots : Fin k → Bool × Status) (i : Fin k) : Bool × Status :=
  if isOpen (slots i) then ((slots i).1, .toP) else slots i

def asked (slots : Fin k → Bool × Status) : List (Fin k) :=
  (List.finRange k).filter fun i => isOpen (slots i)

variable {slots : Fin k → Bool × Status} {operator : Bool × Status} {output : Status}

lemma request_sources_of_nodup {l : List (Fin k)} (h : l.Nodup) :
    request (l.map .source) (cellsOf slots operator output) =
      ((l.filter fun i => isOpen (slots i)).map .source,
        cellsOf (fun i => if i ∈ l then ask slots i else slots i) operator output) := by
  induction l generalizing slots with
  | nil => simp [request]
  | cons i l ih =>
    obtain ⟨hi, hl⟩ := List.nodup_cons.mp h
    by_cases hopen : isOpen (slots i) = true
    · have hguard : (cellsOf slots operator output (.source i)).mHasValue = false ∧
          (cellsOf slots operator output (.source i)).mStatus ≠ .toP ∧
          (cellsOf slots operator output (.source i)).mStatus ≠ .ended := by
        simpa [isOpen, and_assoc] using hopen
      have hfilter : (l.filter fun j => isOpen (Function.update slots i ((slots i).1, .toP) j)) =
          l.filter fun j => isOpen (slots j) := by
        refine List.filter_congr ?_
        intro j hj
        rw [Function.update_of_ne (ne_of_mem_of_not_mem hj hi)]
      have hslots : (fun j => if j ∈ l then ask (Function.update slots i ((slots i).1, .toP)) j
          else Function.update slots i ((slots i).1, .toP) j) =
          fun j => if j ∈ i :: l then ask slots j else slots j := by
        funext j
        by_cases hj : j = i
        · subst hj
          rw [if_neg hi, if_pos List.mem_cons_self, Function.update_self]
          simp [ask, hopen]
        · simp [ask, hj]
      rw [List.map_cons, request, if_pos hguard, setStatus_source, ih hl, hfilter, hslots,
        List.filter_cons, if_pos hopen]
      rfl
    · have hguard : ¬ ((cellsOf slots operator output (.source i)).mHasValue = false ∧
          (cellsOf slots operator output (.source i)).mStatus ≠ .toP ∧
          (cellsOf slots operator output (.source i)).mStatus ≠ .ended) := by
        simpa [isOpen, and_assoc] using hopen
      have hslots : (fun j => if j ∈ l then ask slots j else slots j) =
          fun j => if j ∈ i :: l then ask slots j else slots j := by
        funext j
        by_cases hj : j = i
        · subst hj
          rw [if_neg hi, if_pos List.mem_cons_self]
          simp [ask, hopen]
        · simp [hj]
      rw [List.map_cons, request, if_neg hguard, ih hl, hslots, List.filter_cons, if_neg hopen]

lemma request_sources (slots : Fin k → Bool × Status) (operator : Bool × Status)
    (output : Status) : request (Node.predecessors .operator) (cellsOf slots operator output) =
      ((asked slots).map .source, cellsOf (ask slots) operator output) := by
  unfold Node.predecessors asked
  dsimp only
  rw [request_sources_of_nodup (List.nodup_finRange k)]
  simp only [List.mem_finRange, if_true]

lemma mem_asked (i : Fin k) : i ∈ asked slots ↔ isOpen (slots i) = true := by
  simp [asked]

lemma asked_nodup : (asked slots).Nodup := (List.nodup_finRange k).filter _

end Request

variable {U : Fin k → UpperStream β} {op : Operator k β γ}

section Steps

/-- Turns of the loops of `engine::run`. -/
def Reaches (st : State (Node k) Unit) (o : Store U op) (st' : State (Node k) Unit)
    (o' : Store U op) : Prop :=
  ∃ n, Loops.runSteps (functors U op) [.output] n st o = .ok (st', o')

variable {st st' st'' : State (Node k) Unit} {o o' o'' : Store U op}

lemma Reaches.refl (st : State (Node k) Unit) (o : Store U op) : Reaches st o st o := ⟨0, rfl⟩

lemma Reaches.step (h : Loops.step (functors U op) [.output] st o = .ok (st', o'))
    (hr : Reaches st' o' st'' o'') : Reaches st o st'' o'' := by
  obtain ⟨n, hn⟩ := hr
  exact ⟨n + 1, by rw [Loops.runSteps_succ h, hn]⟩

lemma Reaches.trans (h : Reaches st o st' o') (hr : Reaches st' o' st'' o'') :
    Reaches st o st'' o'' := by
  obtain ⟨n, hn⟩ := h
  obtain ⟨m, hm⟩ := hr
  refine ⟨n + m, ?_⟩
  rw [Loops.runSteps_add, hn]
  exact hm

/-- The operator waits on the stack for the sources in the queue. -/
def searching (slots : Fin k → Bool × Status) (queue : List (Fin k)) : State (Node k) Unit :=
  ⟨cellsOf slots (false, .p) .p, queue.map .source, [.operator, .output],
    if queue = [] then .pop else .bfs⟩

def done (slots : Fin k → Bool × Status) : State (Node k) Unit :=
  ⟨cellsOf slots (false, .ended) .ended, [], [], .finished⟩

variable {slots : Fin k → Bool × Status}

/-- The breadth-first part of a round up to the sources. -/
lemma reaches_searching (hk : 0 < k) (o : Store U op) :
    Reaches (ready slots) o (searching (ask slots) (asked slots)) o := by
  have hne : (Node.predecessors (k := k) .operator).isEmpty = false := by
    rw [List.isEmpty_eq_false_iff]
    exact List.ne_nil_of_mem (List.mem_map_of_mem (List.mem_finRange ⟨0, hk⟩))
  have houtput : Loops.step (functors U op) [.output] (ready slots) o =
      .ok (⟨cellsOf slots (false, .toP) .p, [.operator], [.output], .bfs⟩, o) := by
    simp [Loops.step, ready, Loops.bfsStep, Loops.visit, functors, Node.predecessors, request]
  have hrequest := request_sources slots (false, .p) .p
  have hoperator : Loops.step (functors U op) [.output]
      ⟨cellsOf slots (false, .toP) .p, [.operator], [.output], .bfs⟩ o =
      .ok (searching (ask slots) (asked slots), o) := by
    simp [Loops.step, Loops.bfsStep, Loops.visit, functors, hne, hrequest, searching]
  exact Reaches.step houtput (Reaches.step hoperator (Reaches.refl _ o))

/-- A source in the queue is processed. -/
lemma step_source (i : Fin k) (queue : List (Fin k)) (o : Store U op) :
    Loops.step (functors U op) [.output] (searching slots (i :: queue)) o =
      .ok (searching (Function.update slots i
          (if ((U i).process (o.sources i)).1 then (true, .null) else ((slots i).1, .ended))) queue,
        { o with sources :=
            Function.update o.sources i ((U i).process (o.sources i)).2 }) := by
  cases hprocess : (U i).process (o.sources i) with
  | mk b s =>
    cases b with
    | true =>
      simp [Loops.step, Loops.bfsStep, Loops.visit, functors, Node.predecessors, process, hprocess,
        searching, request, Node.holdsValue]
    | false =>
      simp [Loops.step, Loops.bfsStep, Loops.visit, functors, Node.predecessors, process, hprocess,
        searching, request]

end Steps

section Slots

/-- What the slot of an extractor says about the records that are still to come, the one in the
slot included. -/
inductive Slot (E : Extractor β) (s : E.State) : Bool × Status → List β → Prop
  | filled {x : β} {xs : List β} (value : E.outputValue s = .ok x) (rest : E.Delivers s xs) :
      Slot E s (true, .null) (x :: xs)
  | open {xs : List β} (rest : E.Delivers s xs) : Slot E s (false, .null) xs
  | asked {xs : List β} (rest : E.Delivers s xs) : Slot E s (false, .toP) xs
  | ended : Slot E s (false, .ended) []

/-- Every upper stream holds a value or has ended, as before each call of the operator. -/
def Settled (slots : Fin k → Bool × Status) : Prop :=
  ∀ i, slots i = (true, .null) ∨ slots i = (false, .ended)

def Slots (o : Store U op) (slots : Fin k → Bool × Status) (L : Fin k → List β) : Prop :=
  ∀ i, Slot (U i).toExtractor (o.sources i) (slots i) (L i)

variable {E : Extractor β} {s : E.State} {p : Bool × Status} {xs : List β}
  {slots : Fin k → Bool × Status} {L : Fin k → List β} {o : Store U op}

lemma Slot.ask (h : Slot E s p xs) :
    Slot E s (if isOpen p then (p.1, .toP) else p) xs := by
  cases h with
  | filled value rest => exact .filled value rest
  | «open» rest => exact .asked rest
  | asked rest => exact .asked rest
  | ended => exact .ended

/-- An asked extractor is processed: it holds its next value, or it has ended. -/
lemma Slot.process (h : Slot E s (false, .toP) xs) :
    Slot E (E.process s).2 (if (E.process s).1 then (true, .null) else (false, .ended)) xs := by
  cases h with
  | asked rest =>
    cases xs with
    | nil =>
      rw [Extractor.Delivers] at rest
      rw [rest]
      exact .ended
    | cons x xs =>
      obtain ⟨htrue, hvalue, hrest⟩ := rest
      rw [htrue]
      exact .filled hvalue hrest

lemma Slots.source (h : Slots o slots L) {i : Fin k} (hi : slots i = (false, .toP)) :
    Slots ({ o with
        sources := Function.update o.sources i ((U i).process (o.sources i)).2 } : Store U op)
      (Function.update slots i
        (if ((U i).process (o.sources i)).1 then (true, .null) else ((slots i).1, .ended))) L := by
  intro j
  by_cases hj : j = i
  · subst hj
    have hslot := h j
    rw [hi] at hslot
    simp only [Function.update_self, hi]
    exact hslot.process
  · simp only [Function.update_of_ne hj]
    exact h j

/-- The sources in the queue are processed, until the queue is empty. -/
lemma reaches_polled {queue : List (Fin k)} (hnodup : queue.Nodup)
    (hqueue : ∀ i ∈ queue, slots i = (false, .toP))
    (hsettled : ∀ i, i ∉ queue → slots i = (true, .null) ∨ slots i = (false, .ended))
    (h : Slots o slots L) :
    ∃ slots' o', Reaches (searching slots queue) o (searching slots' []) o' ∧ Settled slots' ∧
      Slots o' slots' L ∧ o'.operator = o.operator ∧ o'.values = o.values := by
  induction queue generalizing slots o with
  | nil => exact ⟨slots, o, Reaches.refl _ o, fun i => hsettled i List.not_mem_nil, h, rfl, rfl⟩
  | cons i queue ih =>
    obtain ⟨hi, hrest⟩ := List.nodup_cons.mp hnodup
    have hslots := h.source (hqueue i List.mem_cons_self)
    obtain ⟨slots', o', hreach, hset, hslots', hop, hvalues⟩ := ih hrest
      (by
        intro j hj
        rw [Function.update_of_ne (ne_of_mem_of_not_mem hj hi)]
        exact hqueue j (List.mem_cons_of_mem i hj))
      (by
        intro j hj
        by_cases hji : j = i
        · subst hji
          rw [Function.update_self, hqueue j List.mem_cons_self]
          split_ifs
          · exact Or.inl rfl
          · exact Or.inr rfl
        · rw [Function.update_of_ne hji]
          exact hsettled j (List.not_mem_cons_of_ne_of_not_mem hji hj))
      hslots
    exact ⟨slots', o', Reaches.step (step_source i queue o) hreach, hset, hslots', hop, hvalues⟩

/-- Between two calls of the operator a slot may also be open. -/
def Between (slots : Fin k → Bool × Status) : Prop :=
  ∀ i, slots i = (true, .null) ∨ slots i = (false, .ended) ∨ slots i = (false, .null)

lemma reaches_asked (hbetween : Between slots) (h : Slots o slots L) :
    ∃ slots' o', Reaches (searching (Star.ask slots) (asked slots)) o (searching slots' []) o' ∧
      Settled slots' ∧ Slots o' slots' L ∧ o'.operator = o.operator ∧ o'.values = o.values := by
  refine reaches_polled asked_nodup ?_ ?_ (fun i => (h i).ask)
  · intro i hi
    rw [mem_asked] at hi
    unfold Star.ask
    rcases hbetween i with hslot | hslot | hslot
    · rw [hslot] at hi
      exact absurd hi (by decide)
    · rw [hslot] at hi
      exact absurd hi (by decide)
    · rw [hslot]
      rfl
  · intro i hi
    rw [mem_asked] at hi
    unfold Star.ask
    rw [if_neg hi]
    rcases hbetween i with hslot | hslot | hslot
    · exact Or.inl hslot
    · exact Or.inr hslot
    · rw [hslot] at hi
      exact absurd (by decide) hi

end Slots

section Polled
variable {slots : Fin k → Bool × Status} {L : Fin k → List β} {o : Store U op}

/-- The values that the operator is done with are dropped. -/
def drop (taken : Fin k → Bool) (L : Fin k → List β) (i : Fin k) : List β :=
  if taken i then (L i).tail else L i

/-- The heads of the streams. -/
def firsts (L : Fin k → List β) (i : Fin k) : Option β := (L i).head?

/-- Before a call of the operator. -/
lemma Slots.settled (h : Slots o slots L) (hsettled : Settled slots) (i : Fin k) :
    (∃ x xs, slots i = (true, .null) ∧ L i = x :: xs ∧
      (U i).outputValue (o.sources i) = .ok x ∧ (U i).Delivers (o.sources i) xs) ∨
    (slots i = (false, .ended) ∧ L i = []) := by
  have hslot := h i
  generalize L i = xs at hslot
  rcases hsettled i with hfilled | hended
  · rw [hfilled] at hslot
    cases hslot with
    | filled value rest => exact Or.inl ⟨_, _, hfilled, rfl, value, rest⟩
  · rw [hended] at hslot
    cases hslot with
    | ended => exact Or.inr ⟨hended, rfl⟩

lemma heads_eq (hsettled : Settled slots) (h : Slots o slots L) (operator : Bool × Status)
    (output : Status) : heads U op (cellsOf slots operator output) o = firsts L := by
  funext i
  unfold heads firsts
  rw [cellsOf_source]
  rcases h.settled hsettled i with ⟨x, xs, hslot, hL, hvalue, -⟩ | ⟨hslot, hL⟩
  · rw [hslot, hL, hvalue]
    rfl
  · rw [hslot, hL]
    rfl

lemma throws_eq (hsettled : Settled slots) (h : Slots o slots L) (operator : Bool × Status)
    (output : Status) : throws U op (cellsOf slots operator output) o = false := by
  unfold throws
  rw [List.any_eq_false]
  intro i _
  rw [cellsOf_source]
  rcases h.settled hsettled i with ⟨x, xs, hslot, -, hvalue, -⟩ | ⟨hslot, -⟩
  · rw [hvalue]
    simp [Except.toOption]
  · rw [hslot]
    simp

lemma Slots.reset (hsettled : Settled slots) (h : Slots o slots L) (taken : Fin k → Bool)
    (s : op.State) (values : List γ) :
    Slots (⟨o.sources, s, values⟩ : Store U op) (Star.reset taken slots) (drop taken L) := by
  intro i
  dsimp only
  unfold Star.reset drop
  rcases h.settled hsettled i with ⟨x, xs, hslot, hL, hvalue, hrest⟩ | ⟨hslot, hL⟩
  · rw [hslot, hL]
    split_ifs
    · exact .open hrest
    · exact .filled hvalue hrest
  · rw [hslot, hL]
    split_ifs
    · exact .ended
    · exact .ended

lemma Settled.reset (hsettled : Settled slots) (taken : Fin k → Bool) :
    Between (Star.reset taken slots) := by
  intro i
  unfold Star.reset
  rcases hsettled i with hfilled | hended
  · rw [hfilled]
    split_ifs
    · exact Or.inr (Or.inr rfl)
    · exact Or.inl rfl
  · rw [hended]
    split_ifs
    · exact Or.inr (Or.inl rfl)
    · exact Or.inr (Or.inl rfl)

/-- A slot is open after the call if its value has been taken. -/
lemma isOpen_reset (hsettled : Settled slots) (h : Slots o slots L) (taken : Fin k → Bool)
    (i : Fin k) : isOpen (Star.reset taken slots i) = true ↔ taken i = true ∧ L i ≠ [] := by
  unfold Star.reset
  rcases h.settled hsettled i with ⟨x, xs, hslot, hL, -, -⟩ | ⟨hslot, hL⟩
  · rw [hslot, hL]
    by_cases htaken : taken i = true
    · simp [htaken, isOpen]
    · simp [htaken, isOpen]
  · rw [hslot, hL]
    by_cases htaken : taken i = true
    · simp [htaken, isOpen]
    · simp [htaken, isOpen]

variable {b : Bool} {taken : Fin k → Bool} {s : op.State}

/-- The operator has a value: the output takes it and asks for the next one. -/
lemma reaches_emitted (hsettled : Settled slots) (h : Slots o slots L)
    (hprocess : op.process o.operator (firsts L) = (true, taken, s)) :
    Reaches (searching slots []) o (ready (reset taken slots))
      ⟨o.sources, s, o.values ++ [op.outputValue s]⟩ := by
  have hoperator : Loops.step (functors U op) [.output] (searching slots []) o =
      .ok (⟨cellsOf (reset taken slots) (true, .null) .p, [], [.output], .pop⟩,
        ⟨o.sources, s, o.values⟩) := by
    simp [Loops.step, searching, Loops.popStep, functors, process, throws_eq hsettled h,
      heads_eq hsettled h, hprocess, consume_cellsOf, Node.holdsValue]
  have houtput : Loops.step (functors U op) [.output]
      ⟨cellsOf (reset taken slots) (true, .null) .p, [], [.output], .pop⟩
      ⟨o.sources, s, o.values⟩ =
      .ok (⟨cellsOf (reset taken slots) (false, .null) .null, [], [], .pop⟩,
        ⟨o.sources, s, o.values ++ [op.outputValue s]⟩) := by
    simp [Loops.step, Loops.popStep, functors, process, Node.holdsValue, resetDoneValue]
  have hprepare : Loops.step (functors U op) [.output]
      ⟨cellsOf (reset taken slots) (false, .null) .null, [], [], .pop⟩
      ⟨o.sources, s, o.values ++ [op.outputValue s]⟩ =
      .ok (ready (reset taken slots), ⟨o.sources, s, o.values ++ [op.outputValue s]⟩) := by
    simp [Loops.step, prepareStep, requestOutputs, ready]
  exact Reaches.step hoperator (Reaches.step houtput (Reaches.step hprepare (Reaches.refl _ _)))

/-- The operator has no value and has taken one: the sources that it took from are asked. -/
lemma reaches_passed (hsettled : Settled slots) (h : Slots o slots L)
    (hprocess : op.process o.operator (firsts L) = (false, taken, s))
    (hasked : asked (reset taken slots) ≠ []) :
    Reaches (searching slots []) o (searching (ask (reset taken slots)) (asked (reset taken slots)))
      ⟨o.sources, s, o.values⟩ := by
  refine Reaches.step ?_ (Reaches.refl _ _)
  have hrequest := request_sources (reset taken slots) (false, .p) .p
  obtain ⟨i, queue, hqueue⟩ := List.exists_cons_of_ne_nil hasked
  rw [hqueue] at hrequest ⊢
  simp [Loops.step, searching, Loops.popStep, functors, process, throws_eq hsettled h,
    heads_eq hsettled h, hprocess, consume_cellsOf, resetDoneValue, hrequest]

/-- The operator has no value and has taken none: the engine stops. -/
lemma reaches_ended (hsettled : Settled slots) (h : Slots o slots L)
    (hprocess : op.process o.operator (firsts L) = (false, taken, s))
    (hasked : asked (reset taken slots) = []) :
    ∃ slots', Reaches (searching slots []) o (done slots') ⟨o.sources, s, o.values⟩ := by
  have hrequest := request_sources (reset taken slots) (false, .p) .p
  rw [hasked] at hrequest
  have hoperator : Loops.step (functors U op) [.output] (searching slots []) o =
      .ok (⟨cellsOf (ask (reset taken slots)) (false, .ended) .p, [], [.output], .pop⟩,
        ⟨o.sources, s, o.values⟩) := by
    simp [Loops.step, searching, Loops.popStep, functors, process, throws_eq hsettled h,
      heads_eq hsettled h, hprocess, consume_cellsOf, resetDoneValue, hrequest]
  have houtput : Loops.step (functors U op) [.output]
      ⟨cellsOf (ask (reset taken slots)) (false, .ended) .p, [], [.output], .pop⟩
      ⟨o.sources, s, o.values⟩ =
      .ok (⟨cellsOf (ask (reset taken slots)) (false, .ended) .ended, [], [], .pop⟩,
        ⟨o.sources, s, o.values⟩) := by
    simp [Loops.step, Loops.popStep, functors, process, Node.predecessors, resetDoneValue, request]
  have hprepare : Loops.step (functors U op) [.output]
      ⟨cellsOf (ask (reset taken slots)) (false, .ended) .ended, [], [], .pop⟩
      ⟨o.sources, s, o.values⟩ =
      .ok (done (ask (reset taken slots)), ⟨o.sources, s, o.values⟩) := by
    simp [Loops.step, prepareStep, requestOutputs, done]
  exact ⟨ask (reset taken slots),
    Reaches.step hoperator (Reaches.step houtput (Reaches.step hprepare (Reaches.refl _ _)))⟩

end Polled

section Emits

/-- What the operator emits from these streams on: a call that returns `false` is repeated when
it has taken a value, and is the last one otherwise. -/
inductive Emits (op : Operator k β γ) : (Fin k → List β) → op.State → List γ → Prop
  | ended {L : Fin k → List β} {s s' : op.State} {taken : Fin k → Bool}
      (process : op.process s (firsts L) = (false, taken, s'))
      (untaken : ∀ i, taken i = true → L i = []) : Emits op L s []
  | passed {L : Fin k → List β} {s s' : op.State} {taken : Fin k → Bool} {out : List γ}
      (process : op.process s (firsts L) = (false, taken, s'))
      (took : ∃ i, taken i = true ∧ L i ≠ []) (rest : Emits op (drop taken L) s' out) :
      Emits op L s out
  | emitted {L : Fin k → List β} {s s' : op.State} {taken : Fin k → Bool} {out : List γ}
      (process : op.process s (firsts L) = (true, taken, s'))
      (rest : Emits op (drop taken L) s' out) : Emits op L s (op.outputValue s' :: out)

variable {slots : Fin k → Bool × Status} {L : Fin k → List β} {o : Store U op} {out : List γ}
  {s : op.State}

lemma asked_reset (hsettled : Settled slots) (h : Slots o slots L) (taken : Fin k → Bool) :
    asked (reset taken slots) ≠ [] ↔ ∃ i, taken i = true ∧ L i ≠ [] := by
  constructor
  · intro hne
    obtain ⟨i, hi⟩ := List.exists_mem_of_ne_nil _ hne
    exact ⟨i, (isOpen_reset hsettled h taken i).mp ((mem_asked i).mp hi)⟩
  · rintro ⟨i, hi⟩
    exact List.ne_nil_of_mem ((mem_asked i).mpr ((isOpen_reset hsettled h taken i).mpr hi))

/-- The engine follows the operator to its end. -/
theorem reaches_of_emits (hk : 0 < k) (hemits : Emits op L s out) (hsettled : Settled slots)
    (h : Slots o slots L) (hs : o.operator = s) :
    ∃ st o', Reaches (searching slots []) o st o' ∧ st.phase = .finished ∧
      o'.values = o.values ++ out := by
  induction hemits generalizing slots o with
  | @ended L s s' taken process untaken =>
    rw [← hs] at process
    have hasked : asked (reset taken slots) = [] := by
      by_contra hne
      obtain ⟨i, htaken, hL⟩ := (asked_reset hsettled h taken).mp hne
      exact hL (untaken i htaken)
    obtain ⟨slots', hreach⟩ := reaches_ended hsettled h process hasked
    exact ⟨done slots', _, hreach, rfl, (List.append_nil _).symm⟩
  | @passed L s s' taken out process took rest ih =>
    rw [← hs] at process
    have hpassed := reaches_passed hsettled h process ((asked_reset hsettled h taken).mpr took)
    obtain ⟨slots', o', hreach, hset, hslots, hop, hvalues⟩ := reaches_asked (hsettled.reset taken)
      (h.reset hsettled taken s' o.values)
    obtain ⟨st, o'', hrest, hfin, hout⟩ := ih hset hslots hop
    exact ⟨st, o'', hpassed.trans (hreach.trans hrest), hfin, by rw [hout, hvalues]⟩
  | @emitted L s s' taken out process rest ih =>
    rw [← hs] at process
    have hemitted := reaches_emitted hsettled h process
    obtain ⟨slots', o', hreach, hset, hslots, hop, hvalues⟩ := reaches_asked (hsettled.reset taken)
      (h.reset hsettled taken s' (o.values ++ [op.outputValue s']))
    obtain ⟨st, o'', hrest, hfin, hout⟩ := ih hset hslots hop
    refine ⟨st, o'', hemitted.trans ((reaches_searching hk _).trans (hreach.trans hrest)), hfin, ?_⟩
    rw [hout, hvalues, List.append_assoc]
    rfl

lemma Emitted.unique {rows rows' : List γ} (h : Emitted U op rows) (h' : Emitted U op rows') :
    rows = rows' := by
  obtain ⟨n, st, o, hn, hfin, hrows⟩ := h
  obtain ⟨m, st', o', hm, hfin', hrows'⟩ := h'
  obtain ⟨-, rfl⟩ := Loops.finish_unique hfin hn hm hfin'
  exact hrows.symm.trans hrows'

/-- From the start every slot is filled before the operator is called. -/
lemma reaches_start (hk : 0 < k) : ∃ (slots : Fin k → Bool × Status) (o : Store U op),
    Reaches (ready fun _ => (false, .null)) (initial U op) (searching slots []) o ∧
      Settled slots ∧ Slots o slots (fun i => (U i).records) ∧ o.operator = op.start ∧
      o.values = [] := by
  have hslots : Slots (initial U op) (fun _ => (false, .null)) fun i => (U i).records := by
    intro i
    exact .open (U i).delivers
  obtain ⟨slots, o, hreach, hset, hsettled, hop, hvalues⟩ :=
    reaches_asked (fun _ => Or.inr (Or.inr rfl)) hslots
  exact ⟨slots, o, (reaches_searching hk _).trans hreach, hset, hsettled, hop, hvalues⟩

/-- A run of the engine from the start ends, and its output is what the operator emits. -/
theorem emitted_iff (hk : 0 < k) (h : Emits op (fun i => (U i).records) op.start out)
    (rows : List γ) : Emitted U op rows ↔ rows = out := by
  obtain ⟨slots, o, hreach, hset, hslots, hop, hvalues⟩ := reaches_start hk
  obtain ⟨st, o', hrest, hfin, hout⟩ := reaches_of_emits hk h hset hslots hop
  obtain ⟨n, hn⟩ := hreach.trans hrest
  rw [hvalues] at hout
  have hemitted : Emitted U op out := ⟨n, st, o', hn, hfin, hout⟩
  refine ⟨fun hrows => hrows.unique hemitted, ?_⟩
  rintro rfl
  exact hemitted

end Emits

section Endless
variable {slots : Fin k → Bool × Status} {L : Fin k → List β} {o : Store U op}

/-- Between two calls the engine leaves its state. -/
lemma Reaches.finish_sooner {st mid st' : State (Node k) Unit} {o₁ o' : Store U op} {n : ℕ}
    (h : Reaches st o mid o₁) (hne : st.phase ≠ mid.phase) (hmid : mid.phase ≠ .finished)
    (hn : Loops.runSteps (functors U op) [.output] n st o = .ok (st', o'))
    (hfin : st'.phase = .finished) :
    ∃ m < n, Loops.runSteps (functors U op) [.output] m mid o₁ = .ok (st', o') := by
  obtain ⟨l, hl⟩ := h
  obtain ⟨m, rfl, hm⟩ := Loops.finish_after hmid hl hn hfin
  refine ⟨m, ?_, hm⟩
  cases l with
  | zero =>
    cases hl
    exact absurd rfl hne
  | succ l => omega

/-- `P` is kept by every call, and every call emits or takes a value: the engine never stops. -/
theorem not_finished_of_endless (hk : 0 < k) {P : (Fin k → List β) → op.State → Prop}
    (hnext : ∀ L s, P L s → ∃ b taken s', op.process s (firsts L) = (b, taken, s') ∧
      (b = true ∨ ∃ i, taken i = true ∧ L i ≠ []) ∧ P (drop taken L) s')
    (n : ℕ) (hsettled : Settled slots) (h : Slots o slots L) (hP : P L o.operator)
    {st : State (Node k) Unit} {o' : Store U op}
    (hn : Loops.runSteps (functors U op) [.output] n (searching slots []) o = .ok (st, o')) :
    st.phase ≠ .finished := by
  induction n using Nat.strong_induction_on generalizing slots L o with
  | _ n ih =>
    intro hfin
    obtain ⟨b, taken, s', hprocess, hcall, hP'⟩ := hnext L o.operator hP
    cases b with
    | true =>
      have hemitted := reaches_emitted hsettled h hprocess
      obtain ⟨m, hm, hrun⟩ := hemitted.finish_sooner (by simp [searching, ready])
        (by simp [ready]) hn hfin
      obtain ⟨slots', o₁, hreach, hset, hslots, hop, -⟩ := reaches_asked (hsettled.reset taken)
        (h.reset hsettled taken s' (o.values ++ [op.outputValue s']))
      obtain ⟨l, hl⟩ := (reaches_searching hk _).trans hreach
      obtain ⟨m', rfl, hrun'⟩ := Loops.finish_after (by simp [searching]) hl hrun hfin
      exact ih m' (by omega) hset hslots (by rw [hop]; exact hP') hrun' hfin
    | false =>
      have htook : ∃ i, taken i = true ∧ L i ≠ [] := hcall.resolve_left (by simp)
      have hasked := (asked_reset hsettled h taken).mpr htook
      have hpassed := reaches_passed hsettled h hprocess hasked
      obtain ⟨m, hm, hrun⟩ := hpassed.finish_sooner (by simp [searching, hasked])
        (by simp [searching, hasked]) hn hfin
      obtain ⟨slots', o₁, hreach, hset, hslots, hop, -⟩ := reaches_asked (hsettled.reset taken)
        (h.reset hsettled taken s' o.values)
      obtain ⟨l, hl⟩ := hreach
      obtain ⟨m', rfl, hrun'⟩ := Loops.finish_after (by simp [searching]) hl hrun hfin
      exact ih m' (by omega) hset hslots (by rw [hop]; exact hP') hrun' hfin

theorem not_emitted_of_endless (hk : 0 < k) {P : (Fin k → List β) → op.State → Prop}
    (hnext : ∀ L s, P L s → ∃ b taken s', op.process s (firsts L) = (b, taken, s') ∧
      (b = true ∨ ∃ i, taken i = true ∧ L i ≠ []) ∧ P (drop taken L) s')
    (hstart : P (fun i => (U i).records) op.start) (rows : List γ) : ¬ Emitted U op rows := by
  rintro ⟨n, st, o, hn, hfin, -⟩
  obtain ⟨slots, o₁, ⟨l, hl⟩, hset, hslots, hop, -⟩ := reaches_start hk
  obtain ⟨m, rfl, hrun⟩ := Loops.finish_after (by simp [searching]) hl hn hfin
  exact not_finished_of_endless hk hnext m hset hslots (by rw [hop]; exact hstart) hrun hfin

end Endless
end PrivacyComputing.Hpda.Star
