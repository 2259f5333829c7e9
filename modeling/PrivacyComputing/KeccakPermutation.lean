import PrivacyComputing.Keccak
import PrivacyComputing.KeccakSteps

/-! The permutation of `keccak.c` against the step mappings of its standard: the loops in place and
the tables of rotations, lanes and constants are those mappings, bit by bit. -/
namespace PrivacyComputing.Keccak
open KeccakSteps (Cube)

section Bits

/-- A bit of a word. -/
def bitAt (w : UInt64) (z : ZMod 64) : ZMod 2 := if w.toBitVec.getLsbD z.val then 1 else 0

/-- The bits of a state; the word of lane `(x, y)` is number `5 * y + x`. -/
def cube (s : Words) : Cube := fun x y z => bitAt (s.getD (5 * y.val + x.val) 0) z

theorem bitAt_xor (v w : UInt64) (z : ZMod 64) : bitAt (v ^^^ w) z = bitAt v z + bitAt w z := by
  simp only [bitAt, UInt64.toBitVec_xor, BitVec.getLsbD_xor]
  cases v.toBitVec.getLsbD z.val <;> cases w.toBitVec.getLsbD z.val <;> rfl

theorem bitAt_and (v w : UInt64) (z : ZMod 64) : bitAt (v &&& w) z = bitAt v z * bitAt w z := by
  simp only [bitAt, UInt64.toBitVec_and, BitVec.getLsbD_and]
  cases v.toBitVec.getLsbD z.val <;> cases w.toBitVec.getLsbD z.val <;> rfl

theorem bitAt_not (w : UInt64) (z : ZMod 64) : bitAt (~~~w) z = bitAt w z + 1 := by
  have hz : z.val < 64 := z.val_lt
  simp only [bitAt, UInt64.toBitVec_not, BitVec.getLsbD_not, hz, decide_true, Bool.true_and]
  cases w.toBitVec.getLsbD z.val <;> rfl

theorem eq_of_bitAt {v w : UInt64} (h : ∀ z, bitAt v z = bitAt w z) : v = w := by
  apply UInt64.eq_of_toBitVec_eq
  apply BitVec.eq_of_getLsbD_eq
  intro i hi
  have hval : (ZMod.val (i : ZMod 64)) = i := ZMod.val_cast_of_lt hi
  have hbit := h i
  simp only [bitAt, hval] at hbit
  cases hv : v.toBitVec.getLsbD i <;> cases hw : w.toBitVec.getLsbD i <;> simp [hv, hw] at hbit ⊢

theorem val_sub_nat (z : ZMod 64) {r : ℕ} (hr : r < 64) :
    (z - (r : ZMod 64)).val = (z.val + (64 - r)) % 64 := by
  have hcast : z - (r : ZMod 64) = ((z.val + (64 - r) : ℕ) : ZMod 64) := by
    have hfull : ((64 : ℕ) : ZMod 64) = 0 := ZMod.natCast_self 64
    rw [Nat.cast_add, ZMod.natCast_zmod_val, Nat.cast_sub (by omega), hfull, zero_sub,
      sub_eq_add_neg]
  rw [hcast, ZMod.val_natCast]

/-- Turning a word to the left reads its bits further down. -/
theorem bitAt_rotl64 (w : UInt64) {r : ℕ} (hpos : 0 < r) (hr : r < 64) (z : ZMod 64) :
    bitAt (rotl64 w (UInt64.ofNat r)) z = bitAt w (z - (r : ZMod 64)) := by
  have hz : z.val < 64 := z.val_lt
  have hleft : (UInt64.ofNat r).toNat = r := by
    rw [UInt64.toNat_ofNat']
    exact Nat.mod_eq_of_lt (by omega)
  have hright : (64 - UInt64.ofNat r).toNat = 64 - r := by
    rw [UInt64.toNat_sub, hleft]
    simp only [UInt64.reduceToNat]
    omega
  have hbit : (rotl64 w (UInt64.ofNat r)).toBitVec.getLsbD z.val =
      w.toBitVec.getLsbD ((z.val + (64 - r)) % 64) := by
    rw [BitVec.getLsbD, UInt64.toNat_toBitVec, rotl64, UInt64.toNat_or, UInt64.toNat_shiftLeft,
      UInt64.toNat_shiftRight, hleft, hright, Nat.mod_eq_of_lt hr, Nat.testBit_or,
      Nat.testBit_mod_two_pow, Nat.testBit_shiftLeft, Nat.mod_eq_of_lt (by omega : 64 - r < 64),
      Nat.testBit_shiftRight, BitVec.getLsbD, UInt64.toNat_toBitVec]
    by_cases hlow : z.val < r
    · have hindex : (z.val + (64 - r)) % 64 = 64 - r + z.val := by omega
      simp [hindex, Nat.not_le.mpr hlow]
    · have hindex : (z.val + (64 - r)) % 64 = z.val - r := by omega
      have hhigh : w.toNat.testBit (64 - r + z.val) = false := by
        apply Nat.testBit_lt_two_pow
        calc w.toNat < 2 ^ 64 := w.toNat_lt
          _ ≤ 2 ^ (64 - r + z.val) := Nat.pow_le_pow_right (by decide) (by omega)
      simp [hindex, hhigh, hz, Nat.not_lt.mp hlow]
  rw [bitAt, bitAt, hbit, val_sub_nat z hr]

end Bits
section Loops

theorem exists_words {s : Words} (h : s.length = 25) : ∃ f : Fin 25 → UInt64, s = List.ofFn f := by
  refine ⟨fun i => s.get (i.cast h.symm), ?_⟩
  apply List.ext_get
  · exact h.trans List.length_ofFn.symm
  · intro n hleft hright
    rw [List.get_ofFn]
    rfl

/-- The word that `theta` collects of a column. -/
def columnWord (s : Words) (x : ℕ) : UInt64 :=
  s.getD x 0 ^^^ s.getD (x + 5) 0 ^^^ s.getD (x + 10) 0 ^^^ s.getD (x + 15) 0 ^^^
    s.getD (x + 20) 0

variable {s : Words} {x y : ℕ}

theorem theta_lane (h : s.length = 25) (hx : x < 5) (hy : y < 5) :
    (theta s).getD (5 * y + x) 0 = s.getD (5 * y + x) 0 ^^^
      (columnWord s ((x + 4) % 5) ^^^ rotl64 (columnWord s ((x + 1) % 5)) 1) := by
  obtain ⟨f, rfl⟩ := exists_words h
  interval_cases x <;> interval_cases y <;> rfl

theorem chi_lane (h : s.length = 25) (hx : x < 5) (hy : y < 5) :
    (chi s).getD (5 * y + x) 0 = s.getD (5 * y + x) 0 ^^^
      (~~~s.getD (5 * y + (x + 1) % 5) 0 &&& s.getD (5 * y + (x + 2) % 5) 0) := by
  obtain ⟨f, rfl⟩ := exists_words h
  interval_cases x <;> interval_cases y <;> rfl

/-- Turning by no bits is not done by shifts. -/
def turn (w : UInt64) (r : ℕ) : UInt64 := if r = 0 then w else rotl64 w (UInt64.ofNat r)

/-- How far the word that ends up at each place was turned. -/
def turns : List ℕ :=
  [0, 44, 43, 21, 14, 28, 20, 3, 45, 61, 1, 6, 25, 8, 18, 27, 36, 10, 15, 56, 62, 55, 39, 41, 2]

theorem offset_eq_turns : ∀ x y : ZMod 5,
    KeccakSteps.offset (x + 3 * y) x = turns.getD (5 * y.val + x.val) 0 := by
  decide +kernel

/-- One step of the loop of `rhoPi`, with its place and its rotation. -/
def move (st : UInt64 × Words) (target : ℕ × UInt64) : UInt64 × Words :=
  (st.2.getD target.1 0, st.2.set target.1 (rotl64 st.1 target.2))

def targets : List (ℕ × UInt64) :=
  (List.range 24).map fun i => (keccakfPiln.getD i 0, keccakfRotc.getD i 0)

theorem rhoPi_eq (s : Words) : rhoPi s = (targets.foldl move (s.getD 1 0, s)).2 := by
  rw [rhoPi, targets, List.foldl_map]
  rfl

/-- The word that the loop leaves at a place, read off the words before the loop: every word is
taken up before it is written over. -/
def moved (s : Words) : List (ℕ × UInt64) → UInt64 → ℕ → UInt64
  | [], _, m => s.getD m 0
  | (j, r) :: rest, t, m => if m = j then rotl64 t r else moved s rest (s.getD j 0) m

theorem moved_set {targets : List (ℕ × UInt64)} {j m : ℕ} (w t : UInt64) (s : Words)
    (hj : j ∉ targets.map Prod.fst) (hm : m ≠ j) :
    moved (s.set j w) targets t m = moved s targets t m := by
  induction targets generalizing t with
  | nil => simp [moved, Ne.symm hm]
  | cons target rest ih =>
    obtain ⟨i, r⟩ := target
    rw [List.map_cons, List.mem_cons, not_or] at hj
    have hother : (s.set j w).getD i 0 = s.getD i 0 := by simp [hj.1]
    rw [moved, moved, hother, ih _ hj.2]

theorem moved_of_not_mem {targets : List (ℕ × UInt64)} {m : ℕ} (t : UInt64) (s : Words)
    (h : m ∉ targets.map Prod.fst) : moved s targets t m = s.getD m 0 := by
  induction targets generalizing t with
  | nil => rfl
  | cons target rest ih =>
    obtain ⟨i, r⟩ := target
    rw [List.map_cons, List.mem_cons, not_or] at h
    rw [moved, if_neg h.1, ih _ h.2]

theorem foldl_move {targets : List (ℕ × UInt64)} (hnodup : (targets.map Prod.fst).Nodup)
    (t : UInt64) (s : Words) (hbound : ∀ j ∈ targets.map Prod.fst, j < s.length) (m : ℕ) :
    (targets.foldl move (t, s)).2.getD m 0 = moved s targets t m := by
  induction targets generalizing t s with
  | nil => rfl
  | cons target rest ih =>
    obtain ⟨j, r⟩ := target
    rw [List.map_cons, List.nodup_cons] at hnodup
    have hj : j < s.length := hbound j List.mem_cons_self
    have hrest : ∀ i ∈ rest.map Prod.fst, i < (s.set j (rotl64 t r)).length := by
      intro i hi
      rw [List.length_set]
      exact hbound i (List.mem_cons_of_mem _ hi)
    rw [List.foldl_cons, move, ih hnodup.2 _ _ hrest, moved]
    by_cases hm : m = j
    · rw [if_pos hm, hm, moved_of_not_mem _ _ hnodup.1]
      simp [hj]
    · rw [if_neg hm, moved_set _ _ _ hnodup.1 hm]

/-- The walk of `keccakf_piln` moves and turns the words as `rho` and `pi` do. -/
theorem rhoPi_lane (h : s.length = 25) (x y : ZMod 5) :
    (rhoPi s).getD (5 * y.val + x.val) 0 =
      turn (s.getD (5 * x.val + (x + 3 * y).val) 0) (KeccakSteps.offset (x + 3 * y) x) := by
  have hnodup : (targets.map Prod.fst).Nodup := by decide
  have hbound : ∀ j ∈ targets.map Prod.fst, j < s.length := by
    rw [h]
    decide
  rw [rhoPi_eq, foldl_move hnodup _ _ hbound, offset_eq_turns]
  fin_cases x <;> fin_cases y <;> rfl

end Loops
section Steps
variable {s : Words}

theorem bitAt_turn (w : UInt64) {r : ℕ} (hr : r < 64) (z : ZMod 64) :
    bitAt (turn w r) z = bitAt w (z - (r : ZMod 64)) := by
  by_cases hzero : r = 0
  · rw [turn, if_pos hzero, hzero, Nat.cast_zero, sub_zero]
  · rw [turn, if_neg hzero, bitAt_rotl64 w (Nat.pos_of_ne_zero hzero) hr]

theorem bitAt_columnWord (s : Words) (x : ZMod 5) (z : ZMod 64) :
    bitAt (columnWord s x.val) z = KeccakSteps.parity (cube s) x z := by
  simp only [columnWord, bitAt_xor, KeccakSteps.parity, cube]
  have hzero : (0 : ZMod 5).val = 0 := rfl
  have hone : (1 : ZMod 5).val = 1 := rfl
  have htwo : (2 : ZMod 5).val = 2 := rfl
  have hthree : (3 : ZMod 5).val = 3 := rfl
  have hfour : (4 : ZMod 5).val = 4 := rfl
  simp only [hzero, hone, htwo, hthree, hfour, Nat.add_comm, Nat.mul_zero, Nat.reduceMul,
    Nat.zero_add]

theorem cube_theta (h : s.length = 25) : cube (theta s) = KeccakSteps.theta (cube s) := by
  have hprev : ∀ x : ZMod 5, (x.val + 4) % 5 = (x - 1).val := by decide
  have hnext : ∀ x : ZMod 5, (x.val + 1) % 5 = (x + 1).val := by decide
  funext x y z
  have hrotate := bitAt_rotl64 (columnWord s (x + 1).val) Nat.one_pos (by decide) z
  rw [cube, theta_lane h x.val_lt y.val_lt, bitAt_xor, bitAt_xor, hprev, hnext]
  rw [Nat.cast_one] at hrotate
  rw [KeccakSteps.theta, ← bitAt_columnWord, ← bitAt_columnWord, ← hrotate]
  rfl

theorem cube_rhoPi (h : s.length = 25) :
    cube (rhoPi s) = KeccakSteps.pi (KeccakSteps.rho (cube s)) := by
  have hoffset : ∀ x y : ZMod 5, KeccakSteps.offset (x + 3 * y) x < 64 := by
    intro x y
    rw [offset_eq_turns]
    revert x y
    decide
  funext x y z
  rw [cube, rhoPi_lane h, bitAt_turn _ (hoffset x y)]
  rfl

theorem cube_chi (h : s.length = 25) : cube (chi s) = KeccakSteps.chi (cube s) := by
  have hnext : ∀ x : ZMod 5, (x.val + 1) % 5 = (x + 1).val := by decide
  have hafter : ∀ x : ZMod 5, (x.val + 2) % 5 = (x + 2).val := by decide
  funext x y z
  rw [cube, chi_lane h x.val_lt y.val_lt, bitAt_xor, bitAt_and, bitAt_not, hnext, hafter]
  rfl

theorem cube_iota (h : s.length = 25) (rndc : UInt64) :
    cube (s.modify 0 (· ^^^ rndc)) = KeccakSteps.iota (bitAt rndc) (cube s) := by
  have hfirst : ∀ x y : ZMod 5, 5 * y.val + x.val = 0 ↔ x = 0 ∧ y = 0 := by decide
  funext x y z
  rw [cube, KeccakSteps.iota]
  by_cases hlane : x = 0 ∧ y = 0
  · rw [if_pos hlane, cube, (hfirst x y).mpr hlane, ← bitAt_xor]
    cases s with
    | nil => cases h
    | cons w rest => rfl
  · have hplace : ¬ 5 * y.val + x.val = 0 := fun heq => hlane ((hfirst x y).mp heq)
    have hsame : (s.modify 0 (· ^^^ rndc)).getD (5 * y.val + x.val) 0 =
        s.getD (5 * y.val + x.val) 0 := by
      simp [Ne.symm hplace]
    rw [if_neg hlane, hsame, cube]

/-- The table of constants is the output of the shift register. -/
theorem roundConstant_eq : ∀ i < 24, ∀ z : ZMod 64,
    KeccakSteps.roundConstant i z = bitAt (keccakfRndc.getD i 0) z := by
  decide +kernel

theorem cube_keccakRound (h : s.length = 25) {i : ℕ} (hi : i < 24) :
    cube (keccakRound s (keccakfRndc.getD i 0)) = KeccakSteps.round i (cube s) := by
  have htheta : (theta s).length = 25 := by rw [theta_length, h]
  have hrhoPi : (rhoPi (theta s)).length = 25 := by rw [rhoPi_length, htheta]
  have hchi : (chi (rhoPi (theta s))).length = 25 := by rw [chi_length, hrhoPi]
  have hconstant : KeccakSteps.roundConstant i = bitAt (keccakfRndc.getD i 0) :=
    funext (roundConstant_eq i hi)
  rw [keccakRound, cube_iota hchi, cube_chi hrhoPi, cube_rhoPi htheta, cube_theta h,
    KeccakSteps.round, hconstant]

theorem keccakRound_length (s : Words) (rndc : UInt64) :
    (keccakRound s rndc).length = s.length := by
  rw [keccakRound, List.length_modify, chi_length, rhoPi_length, theta_length]

theorem cube_injective {s s' : Words} (h : s.length = 25) (h' : s'.length = 25)
    (heq : cube s = cube s') : s = s' := by
  apply List.ext_getElem (h.trans h'.symm)
  intro n hn hn'
  have hrow : n % 5 < 5 := Nat.mod_lt _ (by decide)
  have hplane : n / 5 < 5 := by omega
  have hx : ((n % 5 : ℕ) : ZMod 5).val = n % 5 := ZMod.val_cast_of_lt hrow
  have hy : ((n / 5 : ℕ) : ZMod 5).val = n / 5 := ZMod.val_cast_of_lt hplane
  have hword : s.getD n 0 = s'.getD n 0 := by
    apply eq_of_bitAt
    intro z
    have hbit := congrFun (congrFun (congrFun heq (n % 5 : ℕ)) (n / 5 : ℕ)) z
    rwa [cube, cube, hx, hy, Nat.div_add_mod] at hbit
  simpa [hn, hn'] using hword

end Steps
section Permutation

/-- The state of the sponge. -/
abbrev State := {s : Words // s.length = 25}

def permute (s : State) : State := ⟨keccakf s.val, (keccakf_length s.val).trans s.property⟩

theorem cube_foldl {indices : List ℕ} (hrange : ∀ i ∈ indices, i < 24) {s : Words}
    (h : s.length = 25) :
    cube ((indices.map fun i => keccakfRndc.getD i 0).foldl keccakRound s) =
      KeccakSteps.rounds indices (cube s) := by
  induction indices generalizing s with
  | nil => rfl
  | cons i rest ih =>
    have hround := cube_keccakRound h (hrange i List.mem_cons_self)
    have hlength := (keccakRound_length s (keccakfRndc.getD i 0)).trans h
    have hrest : ∀ j ∈ rest, j < 24 := fun j hj => hrange j (List.mem_cons_of_mem _ hj)
    rw [List.map_cons, List.foldl_cons, ih hrest hlength, hround]
    rfl

/-- The loops of `keccakf` compute the 24 rounds of the standard. -/
theorem cube_permute (s : State) :
    cube (permute s).val = KeccakSteps.rounds (List.range 24) (cube s.val) := by
  have htable : keccakfRndc = (List.range 24).map fun i => keccakfRndc.getD i 0 := by decide
  have hval : (permute s).val = keccakf s.val := by rw [permute]
  have hrange : ∀ i ∈ List.range 24, i < 24 := fun _ => List.mem_range.mp
  rw [← cube_foldl hrange s.property, ← htable, hval, keccakf]

/-- Every state is reached from exactly one state. -/
theorem permute_bijective : Function.Bijective permute := by
  have hcube : Function.Injective fun s : State => cube s.val :=
    fun s s' h => Subtype.ext (cube_injective s.property s'.property h)
  have hfinite : Finite State := Finite.of_injective _ hcube
  apply Finite.injective_iff_bijective.mp
  intro s s' h
  apply hcube
  apply KeccakSteps.rounds_injective (List.range 24)
  rw [← cube_permute, ← cube_permute, h]

end Permutation

end PrivacyComputing.Keccak
