import Mathlib.Data.Int.Basic
import Mathlib.Data.List.Basic
import Mathlib.Tactic.Common

/-! A binary file stream with one shared position, as `std::fstream` has it: the
error bits, the sentry that refuses work on a stream that is not good, short
reads, and seeks from the start, the position or the end of the file. -/
namespace PrivacyComputing

inductive SeekDir
  | beg | cur | fin
  deriving DecidableEq, Repr

structure FileStream where
  content : List UInt8
  pos : ℕ
  isOpen : Bool
  canRead : Bool
  canWrite : Bool
  eofbit : Bool
  failbit : Bool
  badbit : Bool
  deriving DecidableEq, Repr

namespace FileStream

def closed : FileStream := ⟨[], 0, false, false, false, false, false, false⟩

/-- Opening for input keeps the file, opening for output alone truncates it. A successful
`open` clears the error bits. -/
def openIn (disk : List UInt8) : FileStream := ⟨disk, 0, true, true, false, false, false, false⟩
def openOut : FileStream := ⟨[], 0, true, false, true, false, false, false⟩

def close (s : FileStream) : FileStream := { s with isOpen := false }

def fail (s : FileStream) : Bool := s.failbit || s.badbit
def good (s : FileStream) : Bool := !s.eofbit && !s.fail

def clear (s : FileStream) : FileStream :=
  { s with eofbit := false, failbit := false, badbit := false }

/-- An input operation on a stream that is not good only sets `failbit`. -/
def sentry (s : FileStream) : FileStream := if s.good then s else { s with failbit := true }

def tellg (s : FileStream) : ℤ × FileStream :=
  if s.sentry.fail then (-1, s.sentry) else (s.pos, s.sentry)

def target (s : FileStream) (off : ℤ) : SeekDir → ℤ
  | .beg => off
  | .cur => s.pos + off
  | .fin => s.content.length + off

def seek (s : FileStream) (off : ℤ) (dir : SeekDir) : FileStream :=
  if s.fail then s
  else if s.target off dir < 0 then { s with failbit := true }
  else { s with pos := (s.target off dir).toNat }

def seekg (s : FileStream) (off : ℤ) (dir : SeekDir) : FileStream :=
  ({ s with eofbit := false }).sentry.seek off dir

def seekp (s : FileStream) (off : ℤ) (dir : SeekDir) : FileStream := s.seek off dir

/-- Reading past the end delivers what is there and sets `eofbit` and `failbit`. A stream
opened for output only has nothing to read. -/
def read (s : FileStream) (n : ℕ) : List UInt8 × FileStream :=
  if s.good then
    let data := if s.canRead then (s.content.drop s.pos).take n else []
    let short := data.length < n
    (data, { s with
      pos := s.pos + data.length
      eofbit := short
      failbit := short })
  else ([], { s with failbit := true })

/-- Writing overwrites from the position on; a gap after the end is filled with zeros. -/
def write (s : FileStream) (data : List UInt8) : FileStream :=
  if s.good then
    if s.canWrite then
      { s with
        content := s.content.take s.pos ++ List.replicate (s.pos - s.content.length) 0 ++ data ++
          s.content.drop (s.pos + data.length)
        pos := s.pos + data.length }
    else { s with badbit := true }
  else s

section Good
variable {s : FileStream}

lemma good_iff : s.good = true ↔ s.eofbit = false ∧ s.failbit = false ∧ s.badbit = false := by
  simp [good, fail]

lemma fail_of_good (h : s.good = true) : s.fail = false := by
  simp [good] at h
  exact h.2

lemma sentry_of_good (h : s.good = true) : s.sentry = s := by simp [sentry, h]

lemma eofbit_of_good (h : s.good = true) : { s with eofbit := false } = s := by
  obtain ⟨he, -, -⟩ := good_iff.mp h
  rw [← he]

lemma seek_of_good (h : s.good = true) (off : ℤ) (dir : SeekDir) {n : ℕ}
    (ht : s.target off dir = n) : s.seek off dir = { s with pos := n } := by
  have hn : ¬ ((n : ℤ) < 0) := by omega
  rw [seek, fail_of_good h, ht, if_neg hn]
  simp

theorem tellg_of_good (h : s.good = true) : s.tellg = ((s.pos : ℤ), s) := by
  simp [tellg, sentry_of_good h, fail_of_good h]

theorem seekg_of_good (h : s.good = true) (off : ℤ) (dir : SeekDir) {n : ℕ}
    (ht : s.target off dir = n) : s.seekg off dir = { s with pos := n } := by
  rw [seekg, eofbit_of_good h, sentry_of_good h, seek_of_good h off dir ht]

theorem seekp_of_good (h : s.good = true) (off : ℤ) (dir : SeekDir) {n : ℕ}
    (ht : s.target off dir = n) : s.seekp off dir = { s with pos := n } := by
  rw [seekp, seek_of_good h off dir ht]

/-- A seek before the start of the file fails and leaves the stream not good. -/
theorem seekg_negative (h : s.good = true) (off : ℤ) (dir : SeekDir)
    (ht : s.target off dir < 0) : s.seekg off dir = { s with failbit := true } := by
  rw [seekg, eofbit_of_good h, sentry_of_good h, seek, fail_of_good h]
  simp [ht]

theorem read_of_good (h : s.good = true) (hr : s.canRead = true) {data rest : List UInt8}
    (hd : s.content.drop s.pos = data ++ rest) :
    s.read data.length = (data, { s with pos := s.pos + data.length }) := by
  obtain ⟨he, hf, hb⟩ := good_iff.mp h
  simp [read, h, hr, hd, he, hf]

end Good

section Open

variable (s : FileStream)

@[simp] lemma isOpen_clear : s.clear.isOpen = s.isOpen := rfl

@[simp] lemma isOpen_sentry : s.sentry.isOpen = s.isOpen := by
  unfold sentry
  split_ifs <;> rfl

@[simp] lemma isOpen_tellg : s.tellg.2.isOpen = s.isOpen := by
  unfold tellg
  split_ifs <;> simp

@[simp] lemma isOpen_seek (off : ℤ) (dir : SeekDir) : (s.seek off dir).isOpen = s.isOpen := by
  unfold seek
  split_ifs <;> rfl

@[simp] lemma isOpen_seekg (off : ℤ) (dir : SeekDir) : (s.seekg off dir).isOpen = s.isOpen := by
  simp [seekg]

@[simp] lemma isOpen_seekp (off : ℤ) (dir : SeekDir) : (s.seekp off dir).isOpen = s.isOpen := by
  simp [seekp]

@[simp] lemma isOpen_read (n : ℕ) : (s.read n).2.isOpen = s.isOpen := by
  unfold FileStream.read
  split_ifs <;> rfl

@[simp] lemma isOpen_write (data : List UInt8) : (s.write data).isOpen = s.isOpen := by
  unfold write
  split_ifs <;> rfl

end Open

/-- A stream opened for output whose position is the end of what it holds. -/
def atEnd (content : List UInt8) : FileStream :=
  { openOut with content := content, pos := content.length }

lemma atEnd_good (content : List UInt8) : (atEnd content).good = true := rfl

lemma seekp_atEnd (content : List UInt8) :
    (atEnd content).seekp content.length .beg = atEnd content :=
  seekp_of_good (atEnd_good content) _ _ rfl

/-- Data written at the end of the file is appended. -/
theorem write_atEnd (content data : List UInt8) :
    (atEnd content).write data = atEnd (content ++ data) := by
  have hd : content.drop (content.length + data.length) = [] :=
    List.drop_eq_nil_of_le (Nat.le_add_right _ _)
  have hw : (atEnd content).canWrite = true := rfl
  rw [write, if_pos (atEnd_good content), if_pos hw]
  simp [atEnd, openOut, hd]

/-- Several writes append one after the other. -/
theorem foldl_write_atEnd {α : Type*} (bytes : α → List UInt8) (xs : List α)
    (content : List UInt8) :
    xs.foldl (fun s x => s.write (bytes x)) (atEnd content) =
      atEnd (content ++ xs.flatMap bytes) := by
  induction xs generalizing content with
  | nil => simp
  | cons x xs ih => rw [List.foldl_cons, write_atEnd, ih]; simp

/-- A stream opened for output alone delivers nothing. -/
lemma read_openOut (n : ℕ) (h : 0 < n) :
    openOut.read n = ([], { openOut with eofbit := true, failbit := true }) := by
  simp [FileStream.read, good, fail, openOut, h]

/-- What a write of `data` at `pos` makes of the file. -/
def patch (content : List UInt8) (pos : ℕ) (data : List UInt8) : List UInt8 :=
  content.take pos ++ List.replicate (pos - content.length) 0 ++ data ++
    content.drop (pos + data.length)

/-- A stream opened for output, moved to a position. -/
def writeAt (content : List UInt8) (p : ℕ) : FileStream :=
  { openOut with content := content, pos := p }

lemma seekp_writeAt (content : List UInt8) (p q : ℕ) :
    (writeAt content p).seekp q .beg = writeAt content q :=
  seekp_of_good rfl _ _ rfl

lemma write_writeAt (content data : List UInt8) (p : ℕ) :
    (writeAt content p).write data = writeAt (patch content p data) (p + data.length) := rfl

/-- Two writes one after the other are one write of both. -/
theorem patch_append (content a b : List UInt8) (pos : ℕ) :
    patch (patch content pos a) (pos + a.length) b = patch content pos (a ++ b) := by
  have hlen : (content.take pos ++ List.replicate (pos - content.length) 0 ++ a).length =
      pos + a.length := by
    simp only [List.length_append, List.length_take, List.length_replicate]
    omega
  have hz : pos + a.length - (patch content pos a).length = 0 := by
    rw [patch, List.length_append, hlen]
    omega
  rw [patch, hz, patch, List.take_left' hlen, ← hlen, ← List.drop_drop, List.drop_left, hlen,
    List.drop_drop]
  simp [patch, Nat.add_assoc]

theorem length_patch (content data : List UInt8) (pos : ℕ) :
    (patch content pos data).length = max content.length (pos + data.length) := by
  simp only [patch, List.length_append, List.length_take, List.length_replicate, List.length_drop]
  omega

/-- Bytes outside the range written stay as they are. -/
theorem getElem?_patch_outside (content data : List UInt8) (pos k : ℕ) (hk : k < content.length)
    (h : k < pos ∨ pos + data.length ≤ k) : (patch content pos data)[k]? = content[k]? := by
  unfold patch
  rcases h with h | h
  · have hlen : k < (content.take pos).length := by rw [List.length_take]; omega
    rw [List.append_assoc, List.append_assoc, List.getElem?_append_left hlen,
      List.getElem?_take_of_lt h]
  · have hz : pos - content.length = 0 := by omega
    have hlen : (content.take pos ++ List.replicate (pos - content.length) 0 ++ data).length =
        pos + data.length := by
      simp [hz]
      omega
    rw [List.getElem?_append_right (by omega), hlen, List.getElem?_drop]
    congr 1
    omega

theorem getElem?_patch_inside (content data : List UInt8) (pos k : ℕ) (h : k < data.length) :
    (patch content pos data)[pos + k]? = data[k]? := by
  have hlen : (content.take pos ++ List.replicate (pos - content.length) 0).length = pos := by
    simp only [List.length_append, List.length_take, List.length_replicate]
    omega
  have hle : (content.take pos ++ List.replicate (pos - content.length) 0).length ≤ pos + k := by
    omega
  rw [patch, List.append_assoc, List.getElem?_append_right hle, hlen, Nat.add_sub_cancel_left,
    List.getElem?_append_left h]

theorem take_patch (content data : List UInt8) (pos n : ℕ) (hn : n ≤ content.length)
    (hpos : n ≤ pos) : (patch content pos data).take n = content.take n := by
  have hlen : n ≤ (content.take pos).length := by
    rw [List.length_take]
    omega
  rw [patch, List.append_assoc, List.append_assoc, List.take_append_of_le_length hlen,
    List.take_take, Nat.min_eq_left hpos]

theorem take_patch_start (content data : List UInt8) :
    (patch content 0 data).take data.length = data := by
  simp [patch]

end FileStream
end PrivacyComputing
