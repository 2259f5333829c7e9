import Mathlib.Data.List.Basic
import Mathlib.Tactic.Common
import Mathlib.Tactic.Ring

/-! Memory as lists of bytes: unsigned words with the low byte first, and buffers of fixed length
that are read and written in windows. -/
namespace PrivacyComputing.LittleEndian

/-- The `w` bytes of `n` modulo `256 ^ w`. -/
def encode : ℕ → ℕ → List UInt8
  | 0, _ => []
  | w + 1, n => UInt8.ofNat n :: encode w (n / 256)

def decode : List UInt8 → ℕ
  | [] => 0
  | b :: bs => b.toNat + 256 * decode bs

@[simp] theorem encode_length (w n : ℕ) : (encode w n).length = w := by
  induction w generalizing n with
  | zero => rfl
  | succ w ih => simp [encode, ih]

theorem decode_encode (w n : ℕ) : decode (encode w n) = n % 256 ^ w := by
  induction w generalizing n with
  | zero => simp [encode, decode, Nat.mod_one]
  | succ w ih =>
    have hb : (UInt8.ofNat n).toNat = n % 256 := by simp
    simp only [encode, decode, ih, hb]
    rw [Nat.pow_succ', Nat.mod_mul]

theorem decode_encode_of_lt {w n : ℕ} (h : n < 256 ^ w) : decode (encode w n) = n := by
  rw [decode_encode, Nat.mod_eq_of_lt h]

end PrivacyComputing.LittleEndian

namespace PrivacyComputing.BufferWindow

variable {α : Type*}

/-- The `n` elements from `offset` on. An access that leaves the buffer has no value. -/
def peek (buffer : List α) (offset n : ℕ) : Option (List α) :=
  if offset + n ≤ buffer.length then some ((buffer.drop offset).take n) else none

/-- The buffer with `x` written from `offset` on. -/
def poke (buffer : List α) (offset : ℕ) (x : List α) : Option (List α) :=
  if offset + x.length ≤ buffer.length then
    some (buffer.take offset ++ x ++ buffer.drop (offset + x.length))
  else none

theorem peek_append (before window after : List α) {offset n : ℕ}
    (hoffset : before.length = offset) (hn : window.length = n) :
    peek (before ++ window ++ after) offset n = some window := by
  have hin : offset + n ≤ (before ++ window ++ after).length := by
    simp only [List.length_append]
    omega
  rw [peek, if_pos hin, List.append_assoc, List.drop_left' hoffset, List.take_left' hn]

theorem poke_append (before window after : List α) {x : List α} {offset : ℕ}
    (hoffset : before.length = offset) (hx : window.length = x.length) :
    poke (before ++ window ++ after) offset x = some (before ++ x ++ after) := by
  have hin : offset + x.length ≤ (before ++ window ++ after).length := by
    simp only [List.length_append]
    omega
  have hdrop : (before ++ window ++ after).drop (offset + x.length) = after :=
    List.drop_left' (by rw [List.length_append, hoffset, hx])
  rw [poke, if_pos hin, hdrop, List.append_assoc before window, List.take_left' hoffset]

/-- A buffer is made of two windows wherever it is cut. -/
theorem exists_windows {buffer : List α} {m n : ℕ} (h : buffer.length = m + n) :
    ∃ before after, buffer = before ++ after ∧ before.length = m ∧ after.length = n := by
  refine ⟨buffer.take m, buffer.drop m, (List.take_append_drop m buffer).symm, ?_, ?_⟩
  · rw [List.length_take]
    omega
  · rw [List.length_drop]
    omega

/-- What stands before a window stays when the window is written. -/
theorem poke_behind (before : List α) {after x : List α} (h : x.length ≤ after.length) :
    ∃ unused, poke (before ++ after) before.length x = some (before ++ x ++ unused) ∧
      x.length + unused.length = after.length := by
  obtain ⟨old, unused, rfl, hold, hunused⟩ :=
    exists_windows (show after.length = x.length + (after.length - x.length) by omega)
  refine ⟨unused, ?_, by rw [List.length_append, hold]⟩
  rw [← List.append_assoc]
  exact poke_append before old unused rfl hold

theorem peek_outside {buffer : List α} {offset n : ℕ} (h : buffer.length < offset + n) :
    peek buffer offset n = none :=
  if_neg (Nat.not_le.2 h)

theorem peek_whole (buffer : List α) : peek buffer 0 buffer.length = some buffer := by
  simp [peek]

end PrivacyComputing.BufferWindow
