import Mathlib.Algebra.Ring.Nat
import Mathlib.Data.List.Basic
import Mathlib.Tactic.Common
import Mathlib.Tactic.Ring

/-! Machine words in memory with the high byte first, read and written by shifts, and their
rotations. -/
namespace PrivacyComputing.BigEndian

def getU32 : List UInt8 → UInt32
  | a :: b :: c :: d :: _ =>
    a.toUInt32 <<< 24 ||| b.toUInt32 <<< 16 ||| c.toUInt32 <<< 8 ||| d.toUInt32
  | _ => 0

def putU32 (v : UInt32) : List UInt8 :=
  [(v >>> 24).toUInt8, (v >>> 16).toUInt8, (v >>> 8).toUInt8, v.toUInt8]

def getU64 : List UInt8 → UInt64
  | a :: b :: c :: d :: e :: f :: g :: h :: _ =>
    a.toUInt64 <<< 56 ||| b.toUInt64 <<< 48 ||| c.toUInt64 <<< 40 ||| d.toUInt64 <<< 32 |||
      e.toUInt64 <<< 24 ||| f.toUInt64 <<< 16 ||| g.toUInt64 <<< 8 ||| h.toUInt64
  | _ => 0

def putU64 (v : UInt64) : List UInt8 :=
  [(v >>> 56).toUInt8, (v >>> 48).toUInt8, (v >>> 40).toUInt8, (v >>> 32).toUInt8,
    (v >>> 24).toUInt8, (v >>> 16).toUInt8, (v >>> 8).toUInt8, v.toUInt8]

def rol32 (a n : UInt32) : UInt32 := a <<< n ||| a >>> (32 - n)

@[simp] theorem putU32_length (v : UInt32) : (putU32 v).length = 4 := rfl

@[simp] theorem putU64_length (v : UInt64) : (putU64 v).length = 8 := rfl

theorem putU32_eq (v : UInt32) : putU32 v = [UInt8.ofNat (v.toNat / 2 ^ 24),
    UInt8.ofNat (v.toNat / 2 ^ 16), UInt8.ofNat (v.toNat / 2 ^ 8), UInt8.ofNat v.toNat] := by
  have hbyte : ∀ k : UInt32, k.toNat < 32 →
      (v >>> k).toUInt8 = UInt8.ofNat (v.toNat / 2 ^ k.toNat) := by
    intro k hk
    apply UInt8.toNat_inj.mp
    rw [UInt32.toNat_toUInt8, UInt32.toNat_shiftRight, UInt8.toNat_ofNat', Nat.mod_eq_of_lt hk,
      Nat.shiftRight_eq_div_pow]
  have hlow : v.toUInt8 = UInt8.ofNat v.toNat := by
    apply UInt8.toNat_inj.mp
    rw [UInt32.toNat_toUInt8, UInt8.toNat_ofNat']
  rw [putU32, hbyte 24 (by decide), hbyte 16 (by decide), hbyte 8 (by decide), hlow]
  rfl

lemma or_shiftLeft {x y k : ℕ} (h : y < 2 ^ k) : x * 2 ^ k ||| y = x * 2 ^ k + y := by
  rw [← Nat.shiftLeft_eq, ← Nat.shiftLeft_add_eq_or_of_lt h]

theorem getU32_toNat (a b c d : UInt8) (rest : List UInt8) :
    (getU32 (a :: b :: c :: d :: rest)).toNat =
      a.toNat * 2 ^ 24 + b.toNat * 2 ^ 16 + c.toNat * 2 ^ 8 + d.toNat := by
  have hb := b.toNat_lt
  have hc := c.toNat_lt
  have hd := d.toNat_lt
  have hshift : ∀ (e : UInt8) (k : UInt32), k.toNat ≤ 24 →
      (e.toUInt32 <<< k).toNat = e.toNat * 2 ^ k.toNat := by
    intro e k hk
    have he := e.toNat_lt
    have hpow : 2 ^ k.toNat ≤ 2 ^ 24 := Nat.pow_le_pow_right (by decide) hk
    rw [UInt32.toNat_shiftLeft, UInt8.toNat_toUInt32,
      Nat.mod_eq_of_lt (show k.toNat < 32 by omega), Nat.shiftLeft_eq]
    apply Nat.mod_eq_of_lt
    calc e.toNat * 2 ^ k.toNat ≤ 255 * 2 ^ 24 := Nat.mul_le_mul (by omega) hpow
      _ < 2 ^ 32 := by decide
  have h24 := @or_shiftLeft a.toNat (b.toNat * 2 ^ 16) 24 (by omega)
  have h16 := @or_shiftLeft (a.toNat * 2 ^ 8 + b.toNat) (c.toNat * 2 ^ 8) 16 (by omega)
  have h8 := @or_shiftLeft (a.toNat * 2 ^ 16 + b.toNat * 2 ^ 8 + c.toNat) d.toNat 8 (by omega)
  have hab : a.toNat * 2 ^ 24 + b.toNat * 2 ^ 16 = (a.toNat * 2 ^ 8 + b.toNat) * 2 ^ 16 := by ring
  have habc : (a.toNat * 2 ^ 8 + b.toNat) * 2 ^ 16 + c.toNat * 2 ^ 8 =
      (a.toNat * 2 ^ 16 + b.toNat * 2 ^ 8 + c.toNat) * 2 ^ 8 := by ring
  unfold getU32
  rw [UInt32.toNat_or, UInt32.toNat_or, UInt32.toNat_or, hshift a 24 (by decide),
    hshift b 16 (by decide), hshift c 8 (by decide), UInt8.toNat_toUInt32]
  change a.toNat * 2 ^ 24 ||| b.toNat * 2 ^ 16 ||| c.toNat * 2 ^ 8 ||| d.toNat = _
  rw [h24, hab, h16, habc, h8]

theorem getU32_putU32 (v : UInt32) (rest : List UInt8) : getU32 (putU32 v ++ rest) = v := by
  have hv := v.toNat_lt
  apply UInt32.toNat_inj.mp
  rw [putU32_eq]
  simp only [List.cons_append, List.nil_append, getU32_toNat, UInt8.toNat_ofNat']
  omega

theorem putU32_getU32 {xs : List UInt8} (h : 4 ≤ xs.length) : putU32 (getU32 xs) = xs.take 4 := by
  have hbyte : ∀ (e : UInt8) (k : ℕ), k % 256 = e.toNat → UInt8.ofNat k = e := by
    intro e k hk
    apply UInt8.toNat_inj.mp
    rw [UInt8.toNat_ofNat', hk]
  match xs, h with
  | a :: b :: c :: d :: rest, _ =>
    have ha := a.toNat_lt
    have hb := b.toNat_lt
    have hc := c.toNat_lt
    have hd := d.toNat_lt
    rw [putU32_eq, getU32_toNat, hbyte a _ (by omega), hbyte b _ (by omega), hbyte c _ (by omega),
      hbyte d _ (by omega)]
    rfl

theorem putU64_eq (v : UInt64) : putU64 v = [UInt8.ofNat (v.toNat / 2 ^ 56),
    UInt8.ofNat (v.toNat / 2 ^ 48), UInt8.ofNat (v.toNat / 2 ^ 40), UInt8.ofNat (v.toNat / 2 ^ 32),
    UInt8.ofNat (v.toNat / 2 ^ 24), UInt8.ofNat (v.toNat / 2 ^ 16), UInt8.ofNat (v.toNat / 2 ^ 8),
    UInt8.ofNat v.toNat] := by
  have hbyte : ∀ k : UInt64, k.toNat < 64 →
      (v >>> k).toUInt8 = UInt8.ofNat (v.toNat / 2 ^ k.toNat) := by
    intro k hk
    apply UInt8.toNat_inj.mp
    rw [UInt64.toNat_toUInt8, UInt64.toNat_shiftRight, UInt8.toNat_ofNat', Nat.mod_eq_of_lt hk,
      Nat.shiftRight_eq_div_pow]
  have hlow : v.toUInt8 = UInt8.ofNat v.toNat := by
    apply UInt8.toNat_inj.mp
    rw [UInt64.toNat_toUInt8, UInt8.toNat_ofNat']
  rw [putU64, hbyte 56 (by decide), hbyte 48 (by decide), hbyte 40 (by decide),
    hbyte 32 (by decide), hbyte 24 (by decide), hbyte 16 (by decide), hbyte 8 (by decide), hlow]
  rfl

lemma or_byte {x b : ℕ} (hb : b < 2 ^ 8) (k : ℕ) :
    x * 2 ^ (k + 8) ||| b * 2 ^ k = (x * 2 ^ 8 + b) * 2 ^ k := by
  have hlow : b * 2 ^ k < 2 ^ (k + 8) :=
    calc b * 2 ^ k < 2 ^ 8 * 2 ^ k := Nat.mul_lt_mul_of_pos_right hb (Nat.two_pow_pos k)
      _ = 2 ^ (k + 8) := by ring
  rw [or_shiftLeft hlow]
  ring

theorem getU64_toNat (a b c d e f g h : UInt8) (rest : List UInt8) :
    (getU64 (a :: b :: c :: d :: e :: f :: g :: h :: rest)).toNat =
      ((((((a.toNat * 2 ^ 8 + b.toNat) * 2 ^ 8 + c.toNat) * 2 ^ 8 + d.toNat) * 2 ^ 8 +
        e.toNat) * 2 ^ 8 + f.toNat) * 2 ^ 8 + g.toNat) * 2 ^ 8 + h.toNat := by
  have hshift : ∀ (x : UInt8) (k : UInt64), k.toNat ≤ 56 →
      (x.toUInt64 <<< k).toNat = x.toNat * 2 ^ k.toNat := by
    intro x k hk
    have hx := x.toNat_lt
    have hpow : 2 ^ k.toNat ≤ 2 ^ 56 := Nat.pow_le_pow_right (by decide) hk
    rw [UInt64.toNat_shiftLeft, UInt8.toNat_toUInt64,
      Nat.mod_eq_of_lt (show k.toNat < 64 by omega), Nat.shiftLeft_eq]
    apply Nat.mod_eq_of_lt
    calc x.toNat * 2 ^ k.toNat ≤ 255 * 2 ^ 56 := Nat.mul_le_mul (by omega) hpow
      _ < 2 ^ 64 := by decide
  have hlast : h.toNat = h.toNat * 2 ^ 0 := by rw [Nat.pow_zero, Nat.mul_one]
  unfold getU64
  rw [UInt64.toNat_or, UInt64.toNat_or, UInt64.toNat_or, UInt64.toNat_or, UInt64.toNat_or,
    UInt64.toNat_or, UInt64.toNat_or, hshift a 56 (by decide), hshift b 48 (by decide),
    hshift c 40 (by decide), hshift d 32 (by decide), hshift e 24 (by decide),
    hshift f 16 (by decide), hshift g 8 (by decide), UInt8.toNat_toUInt64]
  change a.toNat * 2 ^ (48 + 8) ||| b.toNat * 2 ^ 48 ||| c.toNat * 2 ^ 40 ||| d.toNat * 2 ^ 32 |||
    e.toNat * 2 ^ 24 ||| f.toNat * 2 ^ 16 ||| g.toNat * 2 ^ 8 ||| h.toNat = _
  rw [or_byte b.toNat_lt, or_byte c.toNat_lt 40, or_byte d.toNat_lt 32, or_byte e.toNat_lt 24,
    or_byte f.toNat_lt 16, or_byte g.toNat_lt 8]
  nth_rewrite 1 [hlast]
  rw [or_byte h.toNat_lt 0, Nat.pow_zero, Nat.mul_one]

theorem getU64_putU64 (v : UInt64) (rest : List UInt8) : getU64 (putU64 v ++ rest) = v := by
  have hv := v.toNat_lt
  have hstep (k : ℕ) : v.toNat / 2 ^ (k + 8) * 2 ^ 8 + v.toNat / 2 ^ k % 2 ^ 8 =
      v.toNat / 2 ^ k := by
    rw [Nat.pow_add, ← Nat.div_div_eq_div_mul, Nat.mul_comm, Nat.div_add_mod]
  have htop : v.toNat / 2 ^ 56 % 2 ^ 8 = v.toNat / 2 ^ (48 + 8) := by omega
  have hlast := hstep 0
  rw [Nat.pow_zero, Nat.div_one] at hlast
  apply UInt64.toNat_inj.mp
  rw [putU64_eq]
  simp only [List.cons_append, List.nil_append, getU64_toNat, UInt8.toNat_ofNat']
  rw [htop, hstep 48, hstep 40, hstep 32, hstep 24, hstep 16, hstep 8]
  exact hlast

theorem putU64_getU64 {xs : List UInt8} (h : 8 ≤ xs.length) : putU64 (getU64 xs) = xs.take 8 := by
  have hbyte : ∀ (e : UInt8) (k : ℕ), k % 256 = e.toNat → UInt8.ofNat k = e := by
    intro e k hk
    apply UInt8.toNat_inj.mp
    rw [UInt8.toNat_ofNat', hk]
  match xs, h with
  | a :: b :: c :: d :: e :: f :: g :: i :: rest, _ =>
    have ha := a.toNat_lt
    have hb := b.toNat_lt
    have hc := c.toNat_lt
    have hd := d.toNat_lt
    have he := e.toNat_lt
    have hf := f.toNat_lt
    have hg := g.toNat_lt
    have hi := i.toNat_lt
    rw [putU64_eq, getU64_toNat, hbyte a _ (by omega), hbyte b _ (by omega), hbyte c _ (by omega),
      hbyte d _ (by omega), hbyte e _ (by omega), hbyte f _ (by omega), hbyte g _ (by omega),
      hbyte i _ (by omega)]
    rfl

/-- The bytes after the first eight play no part. -/
theorem getU64_take {n : ℕ} (hn : 8 ≤ n) (xs : List UInt8) : getU64 (xs.take n) = getU64 xs := by
  obtain ⟨m, rfl⟩ := Nat.exists_eq_add_of_le' hn
  by_cases hxs : 8 ≤ xs.length
  · match xs, hxs with
    | a :: b :: c :: d :: e :: f :: g :: h :: rest, _ => rfl
  · rw [List.take_of_length_le (by omega)]

section Rotation

theorem getLsbD_rol32 (a n : UInt32) {i : ℕ} (hi : i < 32) :
    (rol32 a n).toBitVec.getLsbD i = a.toBitVec.getLsbD ((i + 32 - n.toNat % 32) % 32) := by
  have hback : (32 - n).toNat % 32 = (32 - n.toNat % 32) % 32 := by
    have hn := n.toNat_lt
    rw [UInt32.toNat_sub]
    change (2 ^ 32 - n.toNat + 32) % 2 ^ 32 % 32 = _
    omega
  have hout : ∀ k, 32 ≤ k → a.toBitVec.getLsbD k = false := fun k hk =>
    BitVec.getLsbD_of_ge _ _ hk
  rw [rol32, UInt32.toBitVec_or, UInt32.toBitVec_shiftLeft, UInt32.toBitVec_shiftRight,
    BitVec.getLsbD_or, BitVec.shiftLeft_eq', BitVec.ushiftRight_eq', BitVec.getLsbD_shiftLeft,
    BitVec.getLsbD_ushiftRight]
  change (decide (i < 32) && !decide (i < n.toNat % 32) &&
    a.toBitVec.getLsbD (i - n.toNat % 32) ||
      a.toBitVec.getLsbD ((32 - n).toNat % 32 + i)) = _
  rw [hback]
  by_cases hlow : i < n.toNat % 32
  · have hindex : (i + 32 - n.toNat % 32) % 32 = (32 - n.toNat % 32) % 32 + i := by omega
    rw [hindex]
    simp [hlow]
  · have hindex : (i + 32 - n.toNat % 32) % 32 = i - n.toNat % 32 := by omega
    rw [hindex]
    by_cases hzero : n.toNat % 32 = 0
    · simp [hzero, hi]
    · rw [hout ((32 - n.toNat % 32) % 32 + i) (by omega)]
      simp [hi, hlow]

theorem rol32_xor (a b n : UInt32) : rol32 (a ^^^ b) n = rol32 a n ^^^ rol32 b n := by
  apply UInt32.eq_of_toBitVec_eq
  apply BitVec.eq_of_getLsbD_eq
  intro i hi
  rw [UInt32.toBitVec_xor, BitVec.getLsbD_xor, getLsbD_rol32 _ _ hi, getLsbD_rol32 _ _ hi,
    getLsbD_rol32 _ _ hi, UInt32.toBitVec_xor, BitVec.getLsbD_xor]

theorem rol32_rol32 (a m n : UInt32) : rol32 (rol32 a m) n = rol32 a (m + n) := by
  apply UInt32.eq_of_toBitVec_eq
  apply BitVec.eq_of_getLsbD_eq
  intro i hi
  have hindex : ((i + 32 - n.toNat % 32) % 32 + 32 - m.toNat % 32) % 32 =
      (i + 32 - (m + n).toNat % 32) % 32 := by
    rw [UInt32.toNat_add]
    omega
  rw [getLsbD_rol32 _ _ hi, getLsbD_rol32 _ _ (Nat.mod_lt _ (by decide)), getLsbD_rol32 _ _ hi,
    hindex]

theorem rol32_zero (a : UInt32) : rol32 a 0 = a := by
  apply UInt32.eq_of_toBitVec_eq
  apply BitVec.eq_of_getLsbD_eq
  intro i hi
  rw [getLsbD_rol32 _ _ hi]
  congr 1
  change (i + 32 - 0) % 32 = i
  omega

theorem rol32_add_32 (a n : UInt32) : rol32 a (n + 32) = rol32 a n := by
  apply UInt32.eq_of_toBitVec_eq
  apply BitVec.eq_of_getLsbD_eq
  intro i hi
  have hindex : (n + 32).toNat % 32 = n.toNat % 32 := by
    rw [UInt32.toNat_add]
    change (n.toNat + 32) % 2 ^ 32 % 32 = _
    omega
  rw [getLsbD_rol32 _ _ hi, getLsbD_rol32 _ _ hi, hindex]

/-- Shifted by at most three bytes, a byte loses nothing. -/
theorem byte_shiftLeft (b : UInt8) {n : UInt32} (hpos : 0 < n.toNat) (hn : n.toNat ≤ 24) :
    b.toUInt32 <<< n = rol32 b.toUInt32 n := by
  have hb := b.toNat_lt
  have hback : (32 - n).toNat = 32 - n.toNat := by
    rw [UInt32.toNat_sub]
    change (2 ^ 32 - n.toNat + 32) % 2 ^ 32 = _
    omega
  have hzero : b.toUInt32 >>> (32 - n) = 0 := by
    apply UInt32.toNat_inj.mp
    rw [UInt32.toNat_shiftRight, UInt8.toNat_toUInt32, hback, Nat.shiftRight_eq_div_pow]
    apply Nat.div_eq_of_lt
    calc b.toNat < 2 ^ 8 := hb
      _ ≤ 2 ^ ((32 - n.toNat) % 32) := Nat.pow_le_pow_right (by decide) (by omega)
  rw [rol32, hzero, UInt32.or_zero]

end Rotation

end PrivacyComputing.BigEndian
