import Mathlib.Algebra.Ring.Nat
import PrivacyComputing.CryptoPack
import PrivacyComputing.MemoryLayout

/-! `archive_helper<bytes>`: a byte string is its 64-bit length and its bytes. `deserialize` is
told how many bytes are left and does not look at it, so it reads whatever memory follows. -/
namespace PrivacyComputing.BytesArchive
open LittleEndian

/-- The memory from the read position on, also beyond the end of the buffer. -/
abbrev Memory := ℕ → UInt8

def Memory.read (m : Memory) (offset n : ℕ) : Bytes := (List.range n).map fun i => m (offset + i)

def Memory.StartsWith (m : Memory) (data : Bytes) : Prop := m.read 0 data.length = data

def serialize (d : Bytes) : Bytes := encode 8 d.length ++ d

def length (d : Bytes) : UInt32 := .ofNat (d.length + 8)

/-- How many bytes were read, and the value with the consumed count unless an exception left. -/
structure Outcome where
  reads : ℕ
  result : Option (Bytes × UInt32)
  deriving DecidableEq, Repr

/-- The length prefix. -/
def Memory.size (m : Memory) : ℕ := decode (m.read 0 8)

/-- `canAllocate` tells which sizes `new` has memory for; otherwise it throws. -/
def deserialize (canAllocate : ℕ → Bool) (m : Memory) (_len : ℕ) : Outcome :=
  let s := m.size
  if canAllocate s then ⟨8 + s, some (m.read 8 s, .ofNat (s + 8))⟩ else ⟨8, none⟩

/-- What marshalling asks of one call of `deserialize`. -/
structure Marshals (canAllocate : ℕ → Bool) (m : Memory) (len : ℕ) : Prop where
  roundTrip : ∀ b t : Bytes, b.length < 2 ^ 64 → canAllocate b.length = true →
    m.StartsWith (serialize b ++ t) →
    (deserialize canAllocate m len).result = some (b, length b)
  contained : (deserialize canAllocate m len).result = none ∨
    (deserialize canAllocate m len).reads ≤ len ∧
      ∀ b n, (deserialize canAllocate m len).result = some (b, n) → n.toNat ≤ len

theorem read_length (m : Memory) (offset n : ℕ) : (m.read offset n).length = n := by
  simp [Memory.read]

theorem read_add (m : Memory) (offset n k : ℕ) :
    m.read offset (n + k) = m.read offset n ++ m.read (offset + n) k := by
  simp [Memory.read, List.range_add, Nat.add_assoc]

theorem startsWith_append {m : Memory} {x y : Bytes} (h : m.StartsWith (x ++ y)) :
    m.read 0 x.length = x ∧ m.read x.length y.length = y := by
  rw [Memory.StartsWith, List.length_append, read_add, Nat.zero_add] at h
  exact List.append_inj h (read_length m 0 _)

/-- The first part of the promise needs no condition. -/
theorem deserialize_serialize {canAllocate : ℕ → Bool} {m : Memory} {b t : Bytes} (len : ℕ)
    (hb : b.length < 2 ^ 64) (hallocate : canAllocate b.length = true)
    (hm : m.StartsWith (serialize b ++ t)) :
    deserialize canAllocate m len = ⟨8 + b.length, some (b, length b)⟩ := by
  have hserialized := (startsWith_append hm).1
  have hparts := startsWith_append (x := encode 8 b.length) (y := b) hserialized
  rw [encode_length] at hparts
  have hsize : m.size = b.length := by
    rw [Memory.size, hparts.1]
    exact decode_encode_of_lt hb
  simp only [deserialize, hsize, hallocate, hparts.2, if_true]
  rfl

theorem consumed_le (s : ℕ) : (UInt32.ofNat (s + 8)).toNat ≤ 8 + s := by
  rw [UInt32.toNat_ofNat']
  have hmod := Nat.mod_le (s + 8) (2 ^ 32)
  omega

/-- A call keeps inside what it was given exactly when the length prefix, if there is memory for
so many bytes, is within it. -/
theorem marshals_iff (canAllocate : ℕ → Bool) (m : Memory) (len : ℕ) :
    Marshals canAllocate m len ↔ (canAllocate m.size = true → 8 + m.size ≤ len) := by
  constructor
  · intro hmarshals hallocate
    have hcontained := hmarshals.contained
    simp only [deserialize, hallocate, if_true] at hcontained
    rcases hcontained with hnone | hreads
    · cases hnone
    · exact hreads.1
  · intro hsize
    constructor
    · intro b t hb hallocate hm
      rw [deserialize_serialize len hb hallocate hm]
    · by_cases hallocate : canAllocate m.size = true
      · have hle := hsize hallocate
        have hconsumed := consumed_le m.size
        simp only [deserialize, hallocate, if_true]
        refine Or.inr ⟨hle, fun b n hresult => ?_⟩
        simp only [Option.some.injEq, Prod.mk.injEq] at hresult
        rw [← hresult.2]
        omega
      · simp only [deserialize, hallocate]
        exact Or.inl rfl

/-- Nine bytes are left and the prefix says sixteen. -/
def forged : Memory := fun i => if i = 0 then 16 else 0

theorem forged_leaves_buffer :
    (deserialize (fun _ => true) forged 9).reads = 24 ∧
      ((deserialize (fun _ => true) forged 9).result.map Prod.snd) = some 24 ∧
      ¬ Marshals (fun _ => true) forged 9 := by
  refine ⟨by decide, by decide, ?_⟩
  intro hmarshals
  rcases hmarshals.contained with hnone | hreads
  · cases hnone
  · exact absurd hreads.1 (by decide)

end PrivacyComputing.BytesArchive
