import Mathlib

/-! The step mappings of Keccak on a cube of bits, as its standard gives them: columns are mixed,
lanes are turned and moved, rows are combined, and a constant is added. Each of them is one to
one. -/
namespace PrivacyComputing.ShiftSum

variable {G : Type*} [AddCommGroup G]

/-- A bit pattern on a group, added up in three shifts. Doing it twice doubles the shifts, since the
mixed terms cancel. -/
def shiftSum (a b c : G) (P : G → ZMod 2) : G → ZMod 2 :=
  fun g => P (g - a) + P (g - b) + P (g - c)

theorem shiftSum_shiftSum (a b c : G) (P : G → ZMod 2) :
    shiftSum a b c (shiftSum a b c P) = shiftSum (a + a) (b + b) (c + c) P := by
  have htwo : (2 : ZMod 2) = 0 := CharTwo.two_eq_zero
  funext g
  simp only [shiftSum, sub_sub]
  rw [add_comm b a, add_comm c a, add_comm c b]
  linear_combination (P (g - (a + b)) + P (g - (a + c)) + P (g - (b + c))) * htwo

theorem shiftSum_iterate (a b c : G) (n : ℕ) (P : G → ZMod 2) :
    (shiftSum a b c)^[2 ^ n] P = shiftSum (2 ^ n • a) (2 ^ n • b) (2 ^ n • c) P := by
  induction n generalizing P with
  | zero => simp
  | succ n ih =>
    rw [pow_succ, mul_two, Function.iterate_add_apply, ih, ih, shiftSum_shiftSum, ← add_nsmul,
      ← add_nsmul, ← add_nsmul]

/-- A map is injective when some iterate of it is. -/
theorem injective_of_iterate {α : Type*} {f : α → α} {n : ℕ} (hn : n ≠ 0)
    (h : Function.Injective f^[n]) : Function.Injective f := by
  obtain ⟨m, rfl⟩ := Nat.exists_eq_succ_of_ne_zero hn
  rw [Function.iterate_succ] at h
  exact Function.Injective.of_comp h

end PrivacyComputing.ShiftSum

namespace PrivacyComputing.KeccakSteps
open ShiftSum

/-- A state: the bit at a row, a column and a depth. -/
abbrev Cube := ZMod 5 → ZMod 5 → ZMod 64 → ZMod 2

def parity (A : Cube) (x : ZMod 5) (z : ZMod 64) : ZMod 2 :=
  A x 0 z + A x 1 z + A x 2 z + A x 3 z + A x 4 z

def theta (A : Cube) : Cube := fun x y z =>
  A x y z + (parity A (x - 1) z + parity A (x + 1) (z - 1))

/-- The lanes in the order of the walk from lane `(1, 0)`. -/
def walk : ℕ → ZMod 5 × ZMod 5
  | 0 => (1, 0)
  | t + 1 => ((walk t).2, 2 * (walk t).1 + 3 * (walk t).2)

/-- How far a lane is turned: the triangular number of its place in the walk. -/
def offset (x y : ZMod 5) : ℕ :=
  match (List.range 24).find? fun t => walk t == (x, y) with
  | none => 0
  | some t => (t + 1) * (t + 2) / 2 % 64

def rho (A : Cube) : Cube := fun x y z => A x y (z - offset x y)

def pi (A : Cube) : Cube := fun x y z => A (x + 3 * y) x z

def chi (A : Cube) : Cube := fun x y z => A x y z + (A (x + 1) y z + 1) * A (x + 2) y z

def iota (constant : ZMod 64 → ZMod 2) (A : Cube) : Cube := fun x y z =>
  if x = 0 ∧ y = 0 then A x y z + constant z else A x y z

/-- One step of the shift register of eight bits that the constants come from. -/
def shiftRegister (r : BitVec 8) : BitVec 8 :=
  if r.msb then (r <<< 1) ^^^ 0x71 else r <<< 1

def registerBit (t : ℕ) : ZMod 2 := if (shiftRegister^[t] 1).getLsbD 0 then 1 else 0

/-- The constant of a round has bits only where the depth is one less than a power of two. -/
def roundConstant (i : ℕ) (z : ZMod 64) : ZMod 2 :=
  match (List.range 7).find? fun j => z.val + 1 == 2 ^ j with
  | none => 0
  | some j => registerBit (j + 7 * i)

def round (i : ℕ) (A : Cube) : Cube := iota (roundConstant i) (chi (pi (rho (theta A))))

section Theta

/-- The place of a column. -/
abbrev Place := ZMod 5 × ZMod 64

def columns (A : Cube) : Place → ZMod 2 := fun g => parity A g.1 g.2

/-- What `theta` does to the parities of the columns. -/
def mixColumns : (Place → ZMod 2) → Place → ZMod 2 := shiftSum (0, 0) (1, 0) (-1, 1)

/-- What is left of it after 64 times: the shifts in depth are gone. -/
def mixRows : (Place → ZMod 2) → Place → ZMod 2 := shiftSum (0, 0) (4, 0) (1, 0)

theorem columns_theta (A : Cube) : columns (theta A) = mixColumns (columns A) := by
  have htwo : (2 : ZMod 2) = 0 := CharTwo.two_eq_zero
  funext g
  obtain ⟨x, z⟩ := g
  simp only [mixColumns, shiftSum, columns, Prod.mk_sub_mk, sub_zero, sub_neg_eq_add]
  rw [parity]
  simp only [theta]
  have hparity : parity A x z = A x 0 z + A x 1 z + A x 2 z + A x 3 z + A x 4 z := rfl
  rw [hparity]
  linear_combination (2 * parity A (x - 1) z + 2 * parity A (x + 1) (z - 1)) * htwo

theorem mixColumns_iterate (P : Place → ZMod 2) : mixColumns^[2 ^ 6] P = mixRows P := by
  have hzero : 2 ^ 6 • ((0, 0) : Place) = (0, 0) := by decide
  have hback : 2 ^ 6 • ((1, 0) : Place) = (4, 0) := by decide
  have hforth : 2 ^ 6 • ((-1, 1) : Place) = (1, 0) := by decide
  unfold mixColumns
  rw [shiftSum_iterate, hzero, hback, hforth, mixRows]

theorem mixRows_twice (P : Place → ZMod 2) :
    mixRows (mixRows P) = shiftSum (0, 0) (3, 0) (2, 0) P := by
  have hzero : ((0, 0) + (0, 0) : Place) = (0, 0) := by decide
  have hback : ((4, 0) + (4, 0) : Place) = (3, 0) := by decide
  have hforth : ((1, 0) + (1, 0) : Place) = (2, 0) := by decide
  rw [mixRows, shiftSum_shiftSum, hzero, hback, hforth]

/-- Every place but one is reached by two ways. -/
theorem mixRows_thrice (P : Place → ZMod 2) : mixRows^[3] P = P := by
  have htwo : (2 : ZMod 2) = 0 := CharTwo.two_eq_zero
  rw [Function.iterate_succ_apply, Function.iterate_succ_apply, Function.iterate_one,
    mixRows_twice]
  funext g
  obtain ⟨x, z⟩ := g
  simp only [mixRows, shiftSum, Prod.mk_sub_mk, sub_zero, sub_sub]
  have h34 : (3 + 4 : ZMod 5) = 2 := by decide
  have h24 : (2 + 4 : ZMod 5) = 1 := by decide
  have h31 : (3 + 1 : ZMod 5) = 4 := by decide
  have h21 : (2 + 1 : ZMod 5) = 3 := by decide
  rw [h34, h24, h31, h21]
  linear_combination (P (x - 1, z) + P (x - 2, z) + P (x - 3, z) + P (x - 4, z)) * htwo

theorem mixColumns_injective : Function.Injective mixColumns := by
  have hthrice : Function.Injective mixRows^[3] := by
    intro P Q h
    rwa [mixRows_thrice, mixRows_thrice] at h
  have honce : Function.Injective mixRows := injective_of_iterate three_ne_zero hthrice
  have hpower : Function.Injective mixColumns^[2 ^ 6] := by
    intro P Q h
    rw [mixColumns_iterate, mixColumns_iterate] at h
    exact honce h
  exact injective_of_iterate (by decide) hpower

/-- The parities of the columns are known from those of the image, and with them the bits. -/
theorem theta_injective : Function.Injective theta := by
  intro A B h
  have hcolumns : columns A = columns B := by
    apply mixColumns_injective
    rw [← columns_theta, ← columns_theta, h]
  have hparity : ∀ x z, parity A x z = parity B x z := fun x z => congrFun hcolumns (x, z)
  funext x y z
  have hbit := congrFun (congrFun (congrFun h x) y) z
  simp only [theta, hparity] at hbit
  exact add_right_cancel hbit

end Theta
section Lanes

theorem rho_injective : Function.Injective rho := by
  intro A B h
  funext x y z
  have hbit := congrFun (congrFun (congrFun h x) y) (z + offset x y)
  simp only [rho, add_sub_cancel_right] at hbit
  exact hbit

theorem pi_injective : Function.Injective pi := by
  intro A B h
  funext x y z
  have hfrom : ∀ x y : ZMod 5, y + 3 * (2 * (x - y)) = x := by decide
  have hbit := congrFun (congrFun (congrFun h y) (2 * (x - y))) z
  simp only [pi, hfrom] at hbit
  exact hbit

/-- A bit of a row from the row that `chi` makes of it. -/
theorem chi_row : ∀ a b c d e : ZMod 2,
    a = (a + (b + 1) * c) + ((b + (c + 1) * d) + 1) *
      ((c + (d + 1) * e) + ((d + (e + 1) * a) + 1) * (e + (a + 1) * b)) := by
  decide

theorem chi_injective : Function.Injective chi := by
  intro A B h
  have hinverse : ∀ (A : Cube) x y z, A x y z = chi A x y z + (chi A (x + 1) y z + 1) *
      (chi A (x + 2) y z + (chi A (x + 3) y z + 1) * chi A (x + 4) y z) := by
    intro A x y z
    have hrow := chi_row (A x y z) (A (x + 1) y z) (A (x + 2) y z) (A (x + 3) y z) (A (x + 4) y z)
    have h12 : x + 1 + 1 = x + 2 := by ring
    have h13 : x + 1 + 2 = x + 3 := by ring
    have h22 : x + 2 + 1 = x + 3 := by ring
    have h23 : x + 2 + 2 = x + 4 := by ring
    have h33 : x + 3 + 1 = x + 4 := by ring
    have hfive : (5 : ZMod 5) = 0 := by decide
    have h34 : x + 3 + 2 = x := by linear_combination hfive
    have h44 : x + 4 + 1 = x := by linear_combination hfive
    have h45 : x + 4 + 2 = x + 1 := by linear_combination hfive
    simp only [chi, h12, h13, h22, h23, h33, h34, h44, h45]
    exact hrow
  funext x y z
  rw [hinverse A, hinverse B, h]

theorem iota_injective (constant : ZMod 64 → ZMod 2) : Function.Injective (iota constant) := by
  intro A B h
  funext x y z
  have hbit := congrFun (congrFun (congrFun h x) y) z
  simp only [iota] at hbit
  split_ifs at hbit with hlane
  · exact add_right_cancel hbit
  · exact hbit

end Lanes

theorem round_injective (i : ℕ) : Function.Injective (round i) := by
  intro A B h
  exact theta_injective (rho_injective (pi_injective (chi_injective (iota_injective _ h))))

/-- The rounds of a list of numbers, one after the other. -/
def rounds (indices : List ℕ) (A : Cube) : Cube := indices.foldl (fun A i => round i A) A

theorem rounds_injective (indices : List ℕ) : Function.Injective (rounds indices) := by
  induction indices with
  | nil => exact fun _ _ h => h
  | cons i rest ih =>
    intro A B h
    exact round_injective i (ih h)

end PrivacyComputing.KeccakSteps
