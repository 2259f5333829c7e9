import Mathlib.Data.Nat.Digits.Lemmas

/-! Change of base over a digit buffer of fixed size. A number is read digit by digit from its
high end; every digit multiplies the buffer by the base it is read in and is carried into it from
the low end. The pass stops early, on the digits that were never in use. -/
namespace PrivacyComputing.RadixConvert

/-- The buffer times `mul` plus `carry`, low digit first, as long as something is carried or one
of the `length` digits in use is left: the new digits, what is still carried at the end of the
buffer, and the number of digits in use. -/
def mulAdd (base mul length : ℕ) : (i carry : ℕ) → List ℕ → List ℕ × ℕ × ℕ
  | i, carry, [] => ([], carry, i)
  | i, carry, d :: ds =>
    if carry ≠ 0 ∨ i < length then
      let r := mulAdd base mul length (i + 1) ((carry + mul * d) / base) ds
      ((carry + mul * d) % base :: r.1, r.2)
    else (d :: ds, carry, i)

/-- The buffer holds `value`; above the first `length` digits it is zero. -/
structure Holds (base size : ℕ) (digits : List ℕ) (length value : ℕ) : Prop where
  size_eq : digits.length = size
  lt_base : ∀ d ∈ digits, d < base
  unused : ∀ d ∈ digits.drop length, d = 0
  value_eq : Nat.ofDigits base digits = value

section Pass
variable {base mul length : ℕ}

lemma ofDigits_eq_zero {ds : List ℕ} (h : ∀ d ∈ ds, d = 0) : Nat.ofDigits base ds = 0 := by
  rw [List.eq_replicate_of_mem h]
  exact Nat.ofDigits_replicate_zero

theorem mulAdd_length (ds : List ℕ) (i carry : ℕ) :
    (mulAdd base mul length i carry ds).1.length = ds.length := by
  induction ds generalizing i carry with
  | nil => rfl
  | cons d ds ih =>
    unfold mulAdd
    split_ifs
    · simp only [List.length_cons, ih]
    · rfl

theorem mulAdd_lt_base (hbase : 0 < base) {ds : List ℕ} (hds : ∀ d ∈ ds, d < base)
    (i carry : ℕ) : ∀ d ∈ (mulAdd base mul length i carry ds).1, d < base := by
  induction ds generalizing i carry with
  | nil =>
    intro d hd
    cases hd
  | cons d ds ih =>
    unfold mulAdd
    split_ifs
    · intro e he
      rcases List.mem_cons.mp he with rfl | he
      · exact Nat.mod_lt _ hbase
      · exact ih (fun x hx => hds x (List.mem_cons_of_mem _ hx)) _ _ e he
    · exact hds

theorem le_mulAdd_used (ds : List ℕ) (i carry : ℕ) :
    i ≤ (mulAdd base mul length i carry ds).2.2 := by
  induction ds generalizing i carry with
  | nil => exact le_rfl
  | cons d ds ih =>
    unfold mulAdd
    split_ifs
    · have hstep := ih (i + 1) ((carry + mul * d) / base)
      simp only
      omega
    · exact le_rfl

lemma unused_tail {ds : List ℕ} {i d : ℕ}
    (hunused : ∀ e ∈ (d :: ds).drop (length - i), e = 0) :
    ∀ e ∈ ds.drop (length - (i + 1)), e = 0 := by
  intro e he
  apply hunused e
  rcases Nat.eq_zero_or_pos (length - i) with hzero | hpos
  · rw [hzero, List.drop_zero]
    rw [show length - (i + 1) = 0 by omega, List.drop_zero] at he
    exact List.mem_cons_of_mem _ he
  · rw [show length - i = length - (i + 1) + 1 by omega, List.drop_succ_cons]
    exact he

/-- The pass may stop early because the digits it leaves out are zero, and zero times `mul`
is zero again. -/
theorem mulAdd_value {ds : List ℕ} {i : ℕ} (hunused : ∀ d ∈ ds.drop (length - i), d = 0)
    (carry : ℕ) :
    Nat.ofDigits base (mulAdd base mul length i carry ds).1 +
      base ^ ds.length * (mulAdd base mul length i carry ds).2.1 =
    mul * Nat.ofDigits base ds + carry := by
  induction ds generalizing i carry with
  | nil => simp [mulAdd]
  | cons d ds ih =>
    unfold mulAdd
    split_ifs with hgo
    · have hrest := unused_tail hunused
      have hstep := ih hrest ((carry + mul * d) / base)
      have hdiv := Nat.mod_add_div (carry + mul * d) base
      simp only [Nat.ofDigits_cons, List.length_cons, pow_succ]
      calc (carry + mul * d) % base + base * Nat.ofDigits base
              (mulAdd base mul length (i + 1) ((carry + mul * d) / base) ds).1 +
            base ^ ds.length * base *
              (mulAdd base mul length (i + 1) ((carry + mul * d) / base) ds).2.1
          = (carry + mul * d) % base + base * (Nat.ofDigits base
              (mulAdd base mul length (i + 1) ((carry + mul * d) / base) ds).1 +
            base ^ ds.length *
              (mulAdd base mul length (i + 1) ((carry + mul * d) / base) ds).2.1) := by ring
        _ = (carry + mul * d) % base + base * ((carry + mul * d) / base) +
              base * (mul * Nat.ofDigits base ds) := by rw [hstep]; ring
        _ = mul * (d + base * Nat.ofDigits base ds) + carry := by rw [hdiv]; ring
    · have hcarry : carry = 0 := by
        by_contra hne
        exact hgo (Or.inl hne)
      have hlength : length - i = 0 := by omega
      rw [hlength, List.drop_zero] at hunused
      simp only [ofDigits_eq_zero hunused, hcarry, Nat.mul_zero]

theorem mulAdd_unused {ds : List ℕ} {i : ℕ} (hunused : ∀ d ∈ ds.drop (length - i), d = 0)
    (carry : ℕ) :
    ∀ d ∈ (mulAdd base mul length i carry ds).1.drop
      ((mulAdd base mul length i carry ds).2.2 - i), d = 0 := by
  induction ds generalizing i carry with
  | nil =>
    intro d hd
    simp [mulAdd] at hd
  | cons d ds ih =>
    unfold mulAdd
    split_ifs with hgo
    · have hrest := unused_tail hunused
      have hle := @le_mulAdd_used base mul length ds (i + 1) ((carry + mul * d) / base)
      intro e he
      apply ih hrest ((carry + mul * d) / base) e
      simp only at he
      rw [show (mulAdd base mul length (i + 1) ((carry + mul * d) / base) ds).2.2 - i =
        (mulAdd base mul length (i + 1) ((carry + mul * d) / base) ds).2.2 - (i + 1) + 1 by omega,
        List.drop_succ_cons] at he
      exact he
    · have hlength : length - i = 0 := by omega
      rw [hlength] at hunused
      simpa only [Nat.sub_self] using hunused

end Pass

section Run
variable {base mul size length value : ℕ} {digits : List ℕ}

theorem Holds.zero (hbase : 0 < base) (size : ℕ) :
    Holds base size (List.replicate size 0) 0 0 where
  size_eq := List.length_replicate
  lt_base := by
    intro d hd
    rw [List.eq_of_mem_replicate hd]
    exact hbase
  unused := by
    intro d hd
    exact List.eq_of_mem_replicate hd
  value_eq := Nat.ofDigits_replicate_zero

/-- A pass that carries nothing out of the buffer leaves the product in it. -/
theorem Holds.after_mulAdd (hbase : 1 < base) (h : Holds base size digits length value) {carry : ℕ}
    (hout : (mulAdd base mul length 0 carry digits).2.1 = 0) :
    Holds base size (mulAdd base mul length 0 carry digits).1
      (mulAdd base mul length 0 carry digits).2.2 (mul * value + carry) where
  size_eq := by rw [mulAdd_length, h.size_eq]
  lt_base := mulAdd_lt_base (Nat.zero_lt_of_lt hbase) h.lt_base 0 carry
  unused := mulAdd_unused (i := 0) h.unused carry
  value_eq := by
    have hvalue := @mulAdd_value base mul length digits 0 h.unused carry
    rw [hout, Nat.mul_zero, Nat.add_zero, h.value_eq] at hvalue
    exact hvalue

/-- A pass that has room for its result carries nothing out. -/
theorem Holds.carry_eq_zero (h : Holds base size digits length value) {carry : ℕ}
    (hroom : mul * value + carry < base ^ size) :
    (mulAdd base mul length 0 carry digits).2.1 = 0 := by
  have hvalue := @mulAdd_value base mul length digits 0 h.unused carry
  rw [h.value_eq, h.size_eq] at hvalue
  by_contra hne
  have hpow := Nat.le_mul_of_pos_right (base ^ size) (Nat.pos_of_ne_zero hne)
  omega

lemma dropWhile_zero_append {xs ys : List ℕ} (h : ∀ x ∈ xs, x = 0) :
    (xs ++ ys).dropWhile (· == 0) = ys.dropWhile (· == 0) := by
  induction xs with
  | nil => rfl
  | cons x xs ih =>
    rw [List.cons_append, h x List.mem_cons_self]
    exact ih fun y hy => h y (List.mem_cons_of_mem _ hy)

lemma dropWhile_zero_of_head {xs : List ℕ} (h : xs.head? ≠ some 0) :
    xs.dropWhile (· == 0) = xs := by
  cases xs with
  | nil => rfl
  | cons x xs =>
    have hx : ¬ (x == 0) = true := by
      intro hzero
      rw [beq_iff_eq.mp hzero] at h
      exact h rfl
    exact List.dropWhile_cons_of_neg hx

/-- A number is its digits from the high end without leading zeros, however many zeros stand
before them. -/
theorem dropWhile_zero_eq_digits (hbase : 1 < base) {xs : List ℕ} (hxs : ∀ d ∈ xs, d < base) :
    xs.dropWhile (· == 0) = (Nat.digits base (Nat.ofDigits base xs.reverse)).reverse := by
  induction xs with
  | nil => simp
  | cons x xs ih =>
    have hrest : ∀ d ∈ xs, d < base := fun d hd => hxs d (List.mem_cons_of_mem _ hd)
    by_cases hx : x = 0
    · rw [hx, Nat.ofDigits_reverse_zero_cons, ← ih hrest]
      rfl
    · rw [dropWhile_zero_of_head (by simpa using hx), Nat.digits_ofDigits base hbase]
      · exact (List.reverse_reverse _).symm
      · intro d hd
        exact hxs d (List.mem_reverse.mp hd)
      · intro hne
        rw [List.getLast_reverse]
        exact hx

/-- What stands in use in the buffer, from the high end and without leading zeros. -/
theorem Holds.digits_eq (hbase : 1 < base) (h : Holds base size digits length value) :
    (digits.take length).reverse.dropWhile (· == 0) = (Nat.digits base value).reverse := by
  have hall : digits.reverse.dropWhile (· == 0) =
      (digits.take length).reverse.dropWhile (· == 0) := by
    conv_lhs => rw [← List.take_append_drop length digits, List.reverse_append]
    exact dropWhile_zero_append fun d hd => h.unused d (List.mem_reverse.mp hd)
  rw [← hall, dropWhile_zero_eq_digits hbase fun d hd => h.lt_base d (List.mem_reverse.mp hd),
    List.reverse_reverse, h.value_eq]

end Run

section Numbers
variable {base mul : ℕ}

/-- The number that digits in base `mul` stand for, high digit first, after `value`. -/
def readFrom (mul value : ℕ) (cs : List ℕ) : ℕ := cs.foldl (fun v c => mul * v + c) value

theorem readFrom_eq (value : ℕ) (cs : List ℕ) :
    readFrom mul value cs = mul ^ cs.length * value + Nat.ofDigits mul cs.reverse := by
  induction cs generalizing value with
  | nil => simp [readFrom]
  | cons c cs ih =>
    have hstep : readFrom mul value (c :: cs) = readFrom mul (mul * value + c) cs := rfl
    rw [hstep, ih, List.reverse_cons, Nat.ofDigits_append, Nat.ofDigits_singleton,
      List.length_reverse, List.length_cons]
    ring

theorem readFrom_lt {value : ℕ} (hmul : 1 < mul) {cs : List ℕ} (hcs : ∀ c ∈ cs, c < mul) :
    readFrom mul value cs < mul ^ cs.length * (value + 1) := by
  have hlow := Nat.ofDigits_lt_base_pow_length hmul (l := cs.reverse)
    fun c hc => hcs c (List.mem_reverse.mp hc)
  rw [List.length_reverse] at hlow
  rw [readFrom_eq]
  calc mul ^ cs.length * value + Nat.ofDigits mul cs.reverse
      < mul ^ cs.length * value + mul ^ cs.length := by omega
    _ = mul ^ cs.length * (value + 1) := by ring

/-- Digits that do not begin with zero come back from the number they stand for. -/
theorem digits_readFrom (hmul : 1 < mul) {cs : List ℕ} (hcs : ∀ c ∈ cs, c < mul)
    (hhead : cs.head? ≠ some 0) : (Nat.digits mul (readFrom mul 0 cs)).reverse = cs := by
  rw [readFrom_eq, Nat.mul_zero, Nat.zero_add, ← dropWhile_zero_eq_digits hmul hcs,
    dropWhile_zero_of_head hhead]

theorem readFrom_digits (value : ℕ) : readFrom mul 0 (Nat.digits mul value).reverse = value := by
  rw [readFrom_eq, Nat.mul_zero, Nat.zero_add, List.reverse_reverse, Nat.ofDigits_digits]

theorem head_digits_ne_zero (value : ℕ) : (Nat.digits mul value).reverse.head? ≠ some 0 := by
  rw [List.head?_reverse]
  intro hlast
  rcases Nat.eq_zero_or_pos value with hzero | hpos
  · simp [hzero] at hlast
  · have hne : Nat.digits mul value ≠ [] := Nat.digits_ne_nil_iff_ne_zero.mpr hpos.ne'
    rw [List.getLast?_eq_some_getLast hne, Option.some_inj] at hlast
    exact Nat.getLast_digit_ne_zero mul hpos.ne' hlast

/-- A rational upper bound `q / p` of the ratio of the logarithms bounds the digits needed. -/
theorem pow_le_pow_of_ratio {p q n size : ℕ} (hbase : 0 < base) (hp : 0 < p)
    (hratio : mul ^ p ≤ base ^ q) (hsize : q * n ≤ p * size) : mul ^ n ≤ base ^ size := by
  apply le_of_pow_le_pow_left₀ hp.ne' (Nat.zero_le _)
  calc (mul ^ n) ^ p = (mul ^ p) ^ n := by rw [← pow_mul, ← pow_mul, Nat.mul_comm]
    _ ≤ (base ^ q) ^ n := Nat.pow_le_pow_left hratio n
    _ = base ^ (q * n) := by rw [← pow_mul]
    _ ≤ base ^ (p * size) := Nat.pow_le_pow_right hbase hsize
    _ = (base ^ size) ^ p := by rw [← pow_mul, Nat.mul_comm]

end Numbers

end PrivacyComputing.RadixConvert
