import Mathlib.Algebra.Ring.Nat
import Mathlib.Data.List.TakeWhile
import PrivacyComputing.CryptoPack
import PrivacyComputing.MemoryLayout

/-! `LineReader` of the CSV toolkit: a file read in blocks into a buffer of three blocks, of which
the first two hold data and the third is filled by a worker while the lines of the first two
are handed out. A call that fails an assertion, that touches memory outside of the buffer, or
that waits for a worker that has left has no result. -/
namespace PrivacyComputing.CsvLineReader
open BufferWindow

/-- What `next_line` hands back: a null pointer, the C string of a line, or the exception for a
line that has no room in a block. -/
inductive Next
  | null
  | line (text : Bytes)
  | lineLengthLimitExceeded (fileLine : ℕ)
  deriving DecidableEq, Repr

/-- The asynchronous reader: what its byte source has left, and whether its worker still runs.
The worker leaves after a read of no bytes. -/
structure Reader where
  source : Bytes
  running : Bool
  deriving DecidableEq, Repr

structure LineReader where
  buffer : Bytes
  /-- No byte source was moved into the reader when the file fits into two blocks. -/
  reader : Option Reader
  dataBegin : ℕ
  dataEnd : ℕ
  fileLine : ℕ
  deriving DecidableEq, Repr

/-- `finish_read` after a `start_read`: a read is short only at the end of the file. -/
def finishRead (r : Reader) (desiredByteCount : ℕ) : Option (Bytes × Reader) :=
  if r.running then
    some (r.source.take desiredByteCount,
      ⟨r.source.drop desiredByteCount, r.source.take desiredByteCount ≠ []⟩)
  else none

def memcpy (buffer : Bytes) (target source n : ℕ) : Option Bytes := do
  let window ← peek buffer source n
  poke buffer target window

section Reader
variable (blockLen : ℕ)

def bom : Bytes := [0xEF, 0xBB, 0xBF]

/-- `init` on a new buffer, whose bytes may be anything. -/
def init (fresh content : Bytes) : Option LineReader := do
  let buffer ← poke fresh 0 (content.take (2 * blockLen))
  let dataEnd := (content.take (2 * blockLen)).length
  let dataBegin := if dataEnd ≥ 3 ∧ buffer.take 3 = bom then 3 else 0
  let reader := if dataEnd = 2 * blockLen then some ⟨content.drop (2 * blockLen), true⟩ else none
  return ⟨buffer, reader, dataBegin, dataEnd, 0⟩

/-- The second block becomes the first one, the third one the second. -/
def shift (s : LineReader) : Option LineReader := do
  let buffer ← memcpy s.buffer 0 blockLen blockLen
  match s.reader with
  | none =>
    return { s with buffer, dataBegin := s.dataBegin - blockLen, dataEnd := s.dataEnd - blockLen }
  | some r =>
    let (bytes, r) ← finishRead r blockLen
    let buffer ← poke buffer (2 * blockLen) bytes
    let buffer ← memcpy buffer blockLen (2 * blockLen) blockLen
    return ⟨buffer, some r, s.dataBegin - blockLen, s.dataEnd - blockLen + bytes.length, s.fileLine⟩

def refill (s : LineReader) : Option LineReader :=
  if s.dataBegin ≥ blockLen then shift blockLen s else some s

/-- The first line break of the data, or its end. -/
def findLineEnd (s : LineReader) : ℕ :=
  s.dataBegin + (((s.buffer.drop s.dataBegin).take (s.dataEnd - s.dataBegin)).takeWhile
    (· != 10)).length

def cString (buffer : Bytes) (i : ℕ) : Bytes := (buffer.drop i).takeWhile (· != 0)

/-- The line between `data_begin` and `line_end`, ended by a zero byte that is written over its
line break; the last line may have none, and the data then grows by that byte. -/
def cutLine (s : LineReader) (lineEnd : ℕ) : Option (Next × LineReader) := do
  let dataEnd := if lineEnd ≠ s.dataEnd ∧ s.buffer[lineEnd]? = some 10 then s.dataEnd
    else s.dataEnd + 1
  let buffer ← poke s.buffer lineEnd [0]
  let buffer ← if lineEnd ≠ s.dataBegin ∧ buffer[lineEnd - 1]? = some 13 then
      poke buffer (lineEnd - 1) [0]
    else some buffer
  return (.line (cString buffer s.dataBegin),
    { s with buffer, dataBegin := lineEnd + 1, dataEnd })

def nextLine (s : LineReader) : Option (Next × LineReader) :=
  if s.dataBegin = s.dataEnd then some (.null, s)
  else
    let s := { s with fileLine := (s.fileLine + 1) % 2 ^ 32 }
    -- the two assertions of the source
    if ¬ (s.dataBegin < s.dataEnd ∧ s.dataEnd ≤ blockLen * 2) then none
    else do
      let s ← refill blockLen s
      let lineEnd := findLineEnd s
      if lineEnd - s.dataBegin + 1 > blockLen then
        return (.lineLengthLimitExceeded s.fileLine, s)
      else cutLine s lineEnd

/-- `k` calls in a row. -/
def calls : ℕ → LineReader → Option (List Next × LineReader)
  | 0, s => some ([], s)
  | k + 1, s => do
    let (next, s) ← nextLine blockLen s
    let (rest, s) ← calls k s
    return (next :: rest, s)

end Reader

/-! The lines of a file, without blocks or buffers. -/

def stripBom (content : Bytes) : Bytes := if content.take 3 = bom then content.drop 3 else content

/-- What stands before the first line break. -/
def rawLine (rest : Bytes) : Bytes := rest.takeWhile (· != 10)

def afterLine (rest : Bytes) : Bytes := rest.drop ((rawLine rest).length + 1)

/-- The C string of a line without the carriage return of a Windows line break. -/
def textOf (raw : Bytes) : Bytes :=
  (if raw.getLast? = some 13 then raw.dropLast else raw).takeWhile (· != 0)

/-- The lines up to the end of the file. A line break at the end of the file begins no line. -/
def rawLines (rest : Bytes) : List Bytes :=
  if rest = [] then [] else rawLine rest :: rawLines (afterLine rest)
  termination_by rest.length
  decreasing_by
    rename_i h
    unfold afterLine
    rw [List.length_drop]
    have hpos := List.length_pos_iff.mpr h
    omega

/-- The bytes in the buffer that no line has taken. -/
def data (s : LineReader) : Bytes := (s.buffer.drop s.dataBegin).take (s.dataEnd - s.dataBegin)

def pending (s : LineReader) : Bytes := s.reader.elim [] Reader.source

/-- The reader stands before `rest`: a part of it in the buffer and the others in the byte source,
which is asked only when the first two blocks are full. -/
structure Represents (blockLen : ℕ) (s : LineReader) (rest : Bytes) : Prop where
  size : s.buffer.length = 3 * blockLen
  ordered : s.dataBegin ≤ s.dataEnd
  bounded : s.dataEnd ≤ 2 * blockLen
  rest_eq : data s ++ pending s = rest
  full : pending s ≠ [] → s.dataEnd = 2 * blockLen ∧ s.dataBegin < 2 * blockLen
  /-- Once the worker has left, the second block is never reached again. -/
  left : ∀ r ∈ s.reader, r.running = false → s.dataEnd ≤ blockLen ∨ s.dataBegin = s.dataEnd

section Shift
variable {blockLen : ℕ} {s : LineReader} {rest : Bytes}

theorem memcpy_blocks {b₁ b₂ b₃ : Bytes} (h₁ : b₁.length = blockLen) (h₂ : b₂.length = blockLen) :
    memcpy (b₁ ++ b₂ ++ b₃) 0 blockLen blockLen = some (b₂ ++ b₂ ++ b₃) := by
  unfold memcpy
  rw [peek_append b₁ b₂ b₃ h₁ h₂]
  have hpoke := poke_append [] b₁ (b₂ ++ b₃) rfl (h₁.trans h₂.symm)
  rw [List.nil_append, List.nil_append, ← List.append_assoc, ← List.append_assoc] at hpoke
  exact hpoke

theorem memcpy_last {b₁ b₂ b₃ : Bytes} (h₁ : b₁.length = blockLen) (h₂ : b₂.length = blockLen)
    (h₃ : b₃.length = blockLen) :
    memcpy (b₁ ++ b₂ ++ b₃) blockLen (2 * blockLen) blockLen = some (b₁ ++ b₃ ++ b₃) := by
  unfold memcpy
  have hbefore : (b₁ ++ b₂).length = 2 * blockLen := by
    rw [List.length_append]
    omega
  have hpeek := peek_append (b₁ ++ b₂) b₃ [] hbefore h₃
  rw [List.append_nil] at hpeek
  rw [hpeek]
  exact poke_append b₁ b₂ b₃ h₁ (h₂.trans h₃.symm)

/-- A buffer of three blocks. -/
theorem exists_blocks {buffer : Bytes} (h : buffer.length = 3 * blockLen) :
    ∃ b₁ b₂ b₃, buffer = b₁ ++ b₂ ++ b₃ ∧ b₁.length = blockLen ∧ b₂.length = blockLen ∧
      b₃.length = blockLen := by
  refine ⟨buffer.take blockLen, (buffer.drop blockLen).take blockLen,
    buffer.drop (blockLen + blockLen), ?_, ?_, ?_, ?_⟩
  · rw [List.append_assoc, ← List.drop_drop, List.take_append_drop, List.take_append_drop]
  · rw [List.length_take]
    omega
  · rw [List.length_take, List.length_drop]
    omega
  · rw [List.length_drop]
    omega

/-- The data in the second block, after it has become the first one. -/
theorem data_of_blocks {b₁ b₂ tail : Bytes} {first last : ℕ} (tail' : Bytes)
    (h₁ : b₁.length = blockLen) (h₂ : b₂.length = blockLen) (hfirst : blockLen ≤ first)
    (hlast : last ≤ 2 * blockLen) :
    ((b₁ ++ b₂ ++ tail).drop first).take (last - first) =
      ((b₂ ++ tail').drop (first - blockLen)).take (last - first) := by
  have hdrop : (b₁ ++ b₂ ++ tail).drop first = (b₂ ++ tail).drop (first - blockLen) := by
    rw [List.append_assoc, show first = b₁.length + (first - blockLen) by omega,
      List.drop_length_add_append, h₁, Nat.add_sub_cancel_left]
  by_cases hinside : first ≤ 2 * blockLen
  · have hle : first - blockLen ≤ b₂.length := by omega
    have hshort : last - first ≤ (b₂.drop (first - blockLen)).length := by
      rw [List.length_drop]
      omega
    rw [hdrop, List.drop_append_of_le_length hle, List.drop_append_of_le_length hle,
      List.take_append_of_le_length hshort, List.take_append_of_le_length hshort]
  · rw [show last - first = 0 by omega, List.take_zero, List.take_zero]

/-- What `finish_read` appends behind a full second block. -/
theorem data_append {b₂ tail d : Bytes} {first : ℕ} (h₂ : b₂.length = blockLen)
    (hfirst : first ≤ blockLen) :
    ((b₂ ++ (d ++ tail)).drop first).take (blockLen - first + d.length) = b₂.drop first ++ d := by
  rw [List.drop_append_of_le_length (by omega), ← List.append_assoc]
  apply List.take_left'
  rw [List.length_append, List.length_drop]
  omega

theorem shift_spec (h : Represents blockLen s rest) (hbegin : blockLen ≤ s.dataBegin)
    (hdata : s.dataBegin < s.dataEnd) :
    ∃ s', shift blockLen s = some s' ∧ Represents blockLen s' rest ∧ s'.dataBegin < blockLen ∧
      s'.dataBegin < s'.dataEnd ∧ s'.fileLine = s.fileLine := by
  obtain ⟨b₁, b₂, b₃, hblocks, h₁, h₂, h₃⟩ := exists_blocks h.size
  have hbounded := h.bounded
  have hcopy : memcpy (b₁ ++ b₂ ++ b₃) 0 blockLen blockLen = some (b₂ ++ b₂ ++ b₃) :=
    memcpy_blocks h₁ h₂
  rw [← hblocks] at hcopy
  cases hreader : s.reader with
  | none =>
    refine ⟨⟨b₂ ++ b₂ ++ b₃, none, s.dataBegin - blockLen, s.dataEnd - blockLen, s.fileLine⟩,
      ?_, ?_, by simp only; omega, by simp only; omega, rfl⟩
    · simp [shift, hcopy, hreader]
    · have hpending : pending s = [] := by simp [pending, hreader]
      refine ⟨?_, by simp only; omega, by simp only; omega, ?_, ?_, ?_⟩
      · simp only [List.length_append, h₂, h₃]
        omega
      · have hrest := h.rest_eq
        rw [hpending, List.append_nil, data, hblocks,
          data_of_blocks (b₂ ++ b₃) h₁ h₂ hbegin hbounded] at hrest
        simp only [data, pending, Option.elim_none, List.append_nil]
        rw [show s.dataEnd - blockLen - (s.dataBegin - blockLen) = s.dataEnd - s.dataBegin by omega,
          List.append_assoc]
        exact hrest
      · intro hne
        exact absurd rfl hne
      · intro r hr
        cases hr
  | some r =>
    have hrunning : r.running = true := by
      by_contra hleft
      have hleft' := h.left r hreader (by simpa using hleft)
      omega
    set d := r.source.take blockLen with hd
    have hdlen : d.length ≤ blockLen := by
      rw [hd, List.length_take]
      omega
    have hpending : pending s = r.source := by simp [pending, hreader]
    -- the third block after the read
    have hbefore : (b₂ ++ b₂).length = 2 * blockLen := by
      rw [List.length_append]
      omega
    have htaken : (b₃.take d.length).length = d.length := by
      rw [List.length_take]
      omega
    have hpoke := poke_append (b₂ ++ b₂) (b₃.take d.length) (b₃.drop d.length) hbefore htaken
    rw [List.append_assoc _ (b₃.take d.length), List.take_append_drop,
      List.append_assoc _ d] at hpoke
    have hthird : (d ++ b₃.drop d.length).length = blockLen := by
      rw [List.length_append, List.length_drop]
      omega
    have hlast := memcpy_last h₂ h₂ hthird
    refine ⟨⟨b₂ ++ (d ++ b₃.drop d.length) ++ (d ++ b₃.drop d.length),
      some ⟨r.source.drop blockLen, d ≠ []⟩, s.dataBegin - blockLen,
      s.dataEnd - blockLen + d.length, s.fileLine⟩, ?_, ?_, by simp only; omega,
      by simp only; omega, rfl⟩
    · simp [-List.append_assoc, shift, hcopy, hreader, finishRead, hrunning, ← hd, hpoke, hlast]
    · have hrest := h.rest_eq
      rw [hpending, data, hblocks] at hrest
      refine ⟨?_, by simp only; omega, by simp only; omega, ?_, ?_, ?_⟩
      · simp only [List.length_append, h₂, List.length_drop, h₃]
        omega
      · simp only [data, pending, Option.elim_some]
        by_cases hsource : r.source = []
        · have hdnil : d = [] := by rw [hd, hsource, List.take_nil]
          rw [data_of_blocks ((d ++ b₃.drop d.length) ++ (d ++ b₃.drop d.length))
            h₁ h₂ hbegin hbounded] at hrest
          rw [hsource, List.drop_nil, List.append_nil, hdnil, List.length_nil, Nat.add_zero,
            show s.dataEnd - blockLen - (s.dataBegin - blockLen) = s.dataEnd - s.dataBegin by omega,
            List.append_assoc]
          rw [hsource, List.append_nil, hdnil, List.length_nil] at hrest
          exact hrest
        · have hfull := h.full (by rw [hpending]; exact hsource)
          rw [data_of_blocks [] h₁ h₂ hbegin hbounded, List.append_nil,
            List.take_of_length_le (by rw [List.length_drop]; omega)] at hrest
          rw [hfull.1, show 2 * blockLen - blockLen + d.length - (s.dataBegin - blockLen) =
            blockLen - (s.dataBegin - blockLen) + d.length by omega, List.append_assoc,
            List.append_assoc, data_append h₂ (by omega), List.append_assoc, hd,
            List.take_append_drop]
          exact hrest
      · intro hne
        simp only [pending, Option.elim_some] at hne
        have hlong : blockLen < r.source.length := by
          by_contra hshort
          exact hne (List.drop_of_length_le (by omega))
        have hdfull : d.length = blockLen := by
          rw [hd, List.length_take]
          omega
        have hfull := h.full (by rw [hpending]; exact List.ne_nil_of_length_pos (by omega))
        simp only
        omega
      · intro r' hr' hstopped
        rw [← Option.some.inj hr'] at hstopped
        have hdnil : d = [] := by simpa using hstopped
        rw [hdnil]
        simp only [List.length_nil]
        omega

end Shift

section Cut
variable {blockLen : ℕ} {s : LineReader} {rest : Bytes}

theorem cString_append {before : Bytes} {i : ℕ} (raw after : Bytes) (hi : before.length = i) :
    cString (before ++ raw ++ 0 :: after) i = raw.takeWhile (· != 0) := by
  unfold cString
  rw [List.append_assoc, List.drop_left' hi]
  induction raw with
  | nil => rfl
  | cons c raw ih =>
    rw [List.cons_append, List.takeWhile_cons, List.takeWhile_cons, ih]

theorem getElem_after {before raw after : Bytes} {x : UInt8} {i : ℕ}
    (hi : before.length + raw.length = i) : (before ++ raw ++ x :: after)[i]? = some x := by
  rw [List.getElem?_append_right (by rw [List.length_append]; omega), List.length_append, hi,
    Nat.sub_self]
  rfl

theorem poke_byte {before after : Bytes} {x y : UInt8} {i : ℕ} (hi : before.length = i) :
    poke (before ++ x :: after) i [y] = some (before ++ y :: after) := by
  have hpoke := poke_append before [x] after (x := [y]) hi rfl
  rw [List.append_assoc, List.append_assoc] at hpoke
  exact hpoke

/-- The line keeps its place in the buffer; the two characters that end it may be overwritten. -/
theorem cutLine_eq {before raw after : Bytes} {x : UInt8}
    (hbuffer : s.buffer = before ++ raw ++ x :: after) (hbefore : before.length = s.dataBegin) :
    ∃ raw₀, raw₀.length = raw.length ∧ cutLine s (s.dataBegin + raw.length) =
      some (.line (textOf raw), ⟨before ++ raw₀ ++ 0 :: after, s.reader,
        s.dataBegin + raw.length + 1,
        if s.dataBegin + raw.length ≠ s.dataEnd ∧ x = 10 then s.dataEnd else s.dataEnd + 1,
        s.fileLine⟩) := by
  have hat : s.buffer[s.dataBegin + raw.length]? = some x := by
    rw [hbuffer]
    exact getElem_after (by rw [hbefore])
  have hend : poke s.buffer (s.dataBegin + raw.length) [0] =
      some (before ++ raw ++ 0 :: after) := by
    rw [hbuffer]
    exact poke_byte (by rw [List.length_append, hbefore])
  have hsome : ∀ c d : UInt8, (some c = some d) = (c = d) := fun c d => by simp
  rcases List.eq_nil_or_concat raw with rfl | ⟨raw', c, rfl⟩
  · have htext := cString_append [] after hbefore
    refine ⟨[], rfl, ?_⟩
    simp only [cutLine, hat, hend, hsome]
    simpa [textOf] using htext
  · rw [List.concat_eq_append] at hbuffer hat hend ⊢
    have hlength : s.dataBegin + (raw' ++ [c]).length - 1 = s.dataBegin + raw'.length := by
      rw [List.length_append, List.length_singleton]
      omega
    have hne : s.dataBegin + (raw' ++ [c]).length ≠ s.dataBegin := by
      rw [List.length_append, List.length_singleton]
      omega
    have hsplit : ∀ y : UInt8, before ++ (raw' ++ [y]) ++ 0 :: after =
        before ++ raw' ++ y :: 0 :: after := fun y => by simp
    have hlast : (before ++ (raw' ++ [c]) ++ 0 :: after)[s.dataBegin + raw'.length]? = some c := by
      rw [hsplit]
      exact getElem_after (by rw [hbefore])
    have hcut : poke (before ++ (raw' ++ [c]) ++ 0 :: after) (s.dataBegin + raw'.length) [0] =
        some (before ++ (raw' ++ [0]) ++ 0 :: after) := by
      rw [hsplit, hsplit]
      exact poke_byte (by rw [List.length_append, hbefore])
    by_cases hreturn : c = 13
    · subst hreturn
      have htext := cString_append raw' (0 :: after) hbefore
      rw [← hsplit] at htext
      have htextOf : textOf (raw' ++ [13]) = raw'.takeWhile (· != 0) := by
        simp [textOf]
      refine ⟨raw' ++ [0], by simp, ?_⟩
      simp only [cutLine, hat, hend, hsome, hlength, Option.bind_eq_bind, Option.bind_some, hlast,
        hne, ne_eq, not_false_eq_true, and_self, if_true, hcut, htext, htextOf]
      rfl
    · have htext := cString_append (raw' ++ [c]) after hbefore
      have htextOf : textOf (raw' ++ [c]) = (raw' ++ [c]).takeWhile (· != 0) := by
        simp [textOf, hreturn]
      refine ⟨raw' ++ [c], rfl, ?_⟩
      simp only [cutLine, hat, hend, hsome, hlength, Option.bind_eq_bind, Option.bind_some, hlast,
        hreturn, and_false, if_false, htext, htextOf]
      rfl

theorem takeWhile_line {line w : Bytes} (h : 10 ∉ line) :
    (line ++ 10 :: w).takeWhile (· != 10) = line := by
  rw [List.takeWhile_append_of_pos]
  · simp
  · intro c hc
    rw [bne_iff_ne]
    intro heq
    exact h (heq ▸ hc)

/-- The line break that is looked for in the buffer is the one of the file, unless the line has
no room in a block anyway. -/
theorem findLineEnd_spec (h : Represents blockLen s rest) (hbegin : s.dataBegin < blockLen) :
    (findLineEnd s - s.dataBegin + 1 > blockLen ↔ blockLen < (rawLine rest).length + 1) ∧
    ((rawLine rest).length < blockLen →
      findLineEnd s = s.dataBegin + (rawLine rest).length ∧
      ((∃ w, data s = rawLine rest ++ 10 :: w) ∨ data s = rawLine rest ∧ pending s = [])) := by
  have hrest := h.rest_eq
  have hbounded := h.bounded
  have hordered := h.ordered
  have hfind : findLineEnd s - s.dataBegin = ((data s).takeWhile (· != 10)).length :=
    Nat.add_sub_cancel_left _ _
  have hlength : (data s).length = s.dataEnd - s.dataBegin := by
    have hsize := h.size
    rw [data, List.length_take, List.length_drop]
    omega
  by_cases hbreak : 10 ∈ data s
  · obtain ⟨line, w, hsplit, hline⟩ := List.eq_append_cons_of_mem hbreak
    have hraw : rawLine rest = line := by
      rw [← hrest, hsplit, List.append_assoc, List.cons_append]
      exact takeWhile_line hline
    have hdata : (data s).takeWhile (· != 10) = line := by
      rw [hsplit]
      exact takeWhile_line hline
    rw [hdata] at hfind
    rw [hraw]
    refine ⟨by omega, fun hshort => ⟨?_, Or.inl ⟨w, hsplit⟩⟩⟩
    have hle : s.dataBegin ≤ findLineEnd s := Nat.le_add_right _ _
    omega
  · have hdata : (data s).takeWhile (· != 10) = data s := by
      rw [List.takeWhile_eq_self_iff]
      intro c hc
      rw [bne_iff_ne]
      intro heq
      exact hbreak (heq ▸ hc)
    rw [hdata] at hfind
    by_cases hpending : pending s = []
    · have hraw : rawLine rest = data s := by
        rw [← hrest, hpending, List.append_nil]
        exact hdata
      rw [hraw]
      refine ⟨by omega, fun hshort => ⟨?_, Or.inr ⟨rfl, hpending⟩⟩⟩
      have hle : s.dataBegin ≤ findLineEnd s := Nat.le_add_right _ _
      omega
    · -- two full blocks without a line break: the line is longer than one of them
      have hfull := h.full hpending
      have hraw : (data s).length ≤ (rawLine rest).length := by
        rw [← hrest, rawLine, List.takeWhile_append_of_pos, List.length_append]
        · omega
        · intro c hc
          rw [bne_iff_ne]
          intro heq
          exact hbreak (heq ▸ hc)
      exact ⟨by omega, fun hshort => by omega⟩

theorem refill_spec (h : Represents blockLen s rest) (hdata : s.dataBegin < s.dataEnd) :
    ∃ s', refill blockLen s = some s' ∧ Represents blockLen s' rest ∧ s'.dataBegin < blockLen ∧
      s'.dataBegin < s'.dataEnd ∧ s'.fileLine = s.fileLine := by
  unfold refill
  split_ifs with hshift
  · exact shift_spec h hshift hdata
  · exact ⟨s, rfl, h, by omega, hdata, rfl⟩

theorem buffer_eq (h : Represents blockLen s rest) :
    s.buffer = s.buffer.take s.dataBegin ++ (data s ++ s.buffer.drop s.dataEnd) := by
  have hordered := h.ordered
  have hdrop : s.buffer.drop s.dataEnd =
      (s.buffer.drop s.dataBegin).drop (s.dataEnd - s.dataBegin) := by
    rw [List.drop_drop, Nat.add_sub_cancel' hordered]
  rw [data, hdrop, List.take_append_drop, List.take_append_drop]

theorem cutLine_spec (h : Represents blockLen s rest) (hbegin : s.dataBegin < blockLen)
    (hshort : (rawLine rest).length < blockLen)
    (hcases : (∃ w, data s = rawLine rest ++ 10 :: w) ∨
      data s = rawLine rest ∧ pending s = []) :
    ∃ s', cutLine s (s.dataBegin + (rawLine rest).length) =
        some (.line (textOf (rawLine rest)), s') ∧
      Represents blockLen s' (afterLine rest) ∧ s'.fileLine = s.fileLine := by
  have hsize := h.size
  have hordered := h.ordered
  have hbounded := h.bounded
  have hbuffer := buffer_eq h
  have hbefore : (s.buffer.take s.dataBegin).length = s.dataBegin := by
    rw [List.length_take]
    omega
  have hlength : (data s).length = s.dataEnd - s.dataBegin := by
    rw [data, List.length_take, List.length_drop]
    omega
  have hrest := h.rest_eq
  rcases hcases with ⟨w, hw⟩ | ⟨hw, hpending⟩
  · rw [hw, List.append_assoc, List.cons_append, ← List.append_assoc] at hbuffer
    obtain ⟨raw₀, hraw₀, hcut⟩ := cutLine_eq hbuffer hbefore
    rw [hw, List.length_append, List.length_cons] at hlength
    rw [if_pos ⟨by omega, rfl⟩] at hcut
    refine ⟨_, hcut, ?_, rfl⟩
    have hrestAfter : afterLine rest = w ++ pending s := by
      have hsplit : rest = rawLine rest ++ [10] ++ (w ++ pending s) := by
        conv_lhs => rw [← hrest, hw]
        simp
      have hdrop := congrArg (List.drop ((rawLine rest).length + 1)) hsplit
      rw [List.drop_left' (by simp)] at hdrop
      exact hdrop
    have hlen := congrArg List.length hbuffer
    simp only [List.length_append, List.length_cons] at hlen
    refine ⟨?_, by simp only; omega, hbounded, ?_, ?_, ?_⟩
    · simp only [List.length_append, List.length_cons]
      omega
    · rw [hrestAfter]
      congr 1
      have hdrop : ((s.buffer.take s.dataBegin ++ raw₀ ++ 0 :: (w ++ s.buffer.drop s.dataEnd)).drop
          (s.dataBegin + (rawLine rest).length + 1)) = w ++ s.buffer.drop s.dataEnd := by
        rw [List.append_cons]
        apply List.drop_left'
        simp only [List.length_append, List.length_singleton]
        omega
      simp only [data]
      rw [hdrop]
      exact List.take_left' (by omega)
    · intro hne
      have hfull := h.full hne
      exact ⟨hfull.1, by simp only; omega⟩
    · intro r hr hstopped
      have hleft := h.left r hr hstopped
      left
      simp only
      omega
  · obtain ⟨x, after, htail⟩ : ∃ x after, s.buffer.drop s.dataEnd = x :: after := by
      cases htail : s.buffer.drop s.dataEnd with
      | nil =>
        have hle := List.drop_eq_nil_iff.mp htail
        omega
      | cons x after => exact ⟨x, after, rfl⟩
    rw [hw] at hlength
    rw [hw, htail, ← List.append_assoc] at hbuffer
    obtain ⟨raw₀, hraw₀, hcut⟩ := cutLine_eq hbuffer hbefore
    rw [if_neg (by omega)] at hcut
    refine ⟨_, hcut, ?_, rfl⟩
    have hrestAfter : afterLine rest = [] := by
      rw [hw, hpending, List.append_nil] at hrest
      unfold afterLine
      apply List.drop_eq_nil_iff.mpr
      conv_lhs => rw [← hrest]
      omega
    have hlen := congrArg List.length hbuffer
    simp only [List.length_append, List.length_cons] at hlen
    refine ⟨?_, by simp only; omega, by simp only; omega, ?_, ?_, ?_⟩
    · simp only [List.length_append, List.length_cons]
      omega
    · rw [hrestAfter]
      have hnone : s.dataEnd + 1 - (s.dataBegin + (rawLine rest).length + 1) = 0 := by omega
      simp only [data, hnone, List.take_zero, List.nil_append]
      exact hpending
    · intro hne
      exact absurd hpending hne
    · intro r hr hstopped
      right
      simp only
      omega

/-- `next_line` in terms of the file alone. -/
theorem nextLine_spec (h : Represents blockLen s rest) (hrest : rest ≠ []) :
    ∃ s', s'.fileLine = (s.fileLine + 1) % 2 ^ 32 ∧
      if (rawLine rest).length < blockLen then
        nextLine blockLen s = some (.line (textOf (rawLine rest)), s') ∧
          Represents blockLen s' (afterLine rest)
      else
        nextLine blockLen s = some (.lineLengthLimitExceeded s'.fileLine, s') ∧
          Represents blockLen s' rest := by
  have hordered := h.ordered
  have hbounded := h.bounded
  have hne : s.dataBegin ≠ s.dataEnd := by
    intro heq
    have hdata : data s = [] := by
      rw [data, heq, Nat.sub_self, List.take_zero]
    by_cases hpending : pending s = []
    · exact hrest (by rw [← h.rest_eq, hdata, hpending, List.append_nil])
    · have hfull := h.full hpending
      omega
  -- the state in which the line is looked for
  set t : LineReader := { s with fileLine := (s.fileLine + 1) % 2 ^ 32 } with ht
  have hcounted : Represents blockLen t rest :=
    ⟨h.size, h.ordered, h.bounded, h.rest_eq, h.full, h.left⟩
  obtain ⟨u, hu, hrep, hbegin, hdata, hcount⟩ := refill_spec hcounted (by simp only [ht]; omega)
  have hstep : nextLine blockLen s =
      if findLineEnd u - u.dataBegin + 1 > blockLen then
        some (.lineLengthLimitExceeded u.fileLine, u)
      else cutLine u (findLineEnd u) := by
    unfold nextLine
    rw [if_neg hne]
    simp only
    rw [if_neg (by omega), ← ht, hu]
    rfl
  obtain ⟨hlimit, hfound⟩ := findLineEnd_spec hrep hbegin
  by_cases hshort : (rawLine rest).length < blockLen
  · obtain ⟨hend, hcases⟩ := hfound hshort
    rw [if_neg (by omega), hend] at hstep
    obtain ⟨u', hcut, hafter, hline⟩ := cutLine_spec hrep hbegin hshort hcases
    refine ⟨u', by rw [hline, hcount], ?_⟩
    rw [if_pos hshort, hstep]
    exact ⟨hcut, hafter⟩
  · refine ⟨u, by rw [hcount], ?_⟩
    rw [if_neg hshort]
    rw [if_pos (by omega)] at hstep
    exact ⟨hstep, hrep⟩

theorem nextLine_nil (h : Represents blockLen s []) : nextLine blockLen s = some (.null, s) := by
  have hrest := List.append_eq_nil_iff.mp h.rest_eq
  have hlength : (data s).length = s.dataEnd - s.dataBegin := by
    have hsize := h.size
    have hbounded := h.bounded
    rw [data, List.length_take, List.length_drop]
    omega
  have hordered := h.ordered
  rw [hrest.1, List.length_nil] at hlength
  unfold nextLine
  rw [if_pos (by omega)]

end Cut

section Init
variable {blockLen : ℕ}

/-- A new reader stands before the file without its byte order mark. -/
theorem init_spec (hblock : 2 ≤ blockLen) {fresh : Bytes} (hfresh : fresh.length = 3 * blockLen)
    (content : Bytes) :
    ∃ s, init blockLen fresh content = some s ∧ Represents blockLen s (stripBom content) ∧
      s.fileLine = 0 := by
  set head := content.take (2 * blockLen) with hhead
  have hle : head.length ≤ 2 * blockLen := by
    rw [hhead, List.length_take]
    omega
  have hpoke : poke fresh 0 head = some (head ++ fresh.drop head.length) := by
    have htaken : (fresh.take head.length).length = head.length := by
      rw [List.length_take]
      omega
    have happend := poke_append [] (fresh.take head.length) (fresh.drop head.length) rfl htaken
    rw [List.nil_append, List.nil_append, List.take_append_drop] at happend
    exact happend
  -- the first three bytes of a long enough file are those of the buffer
  have hfirst : head.length ≥ 3 → (head ++ fresh.drop head.length).take 3 = content.take 3 := by
    intro hthree
    rw [List.take_append_of_le_length hthree, hhead, List.take_take, Nat.min_eq_left (by omega)]
  have hstrip : stripBom content = content.drop
      (if head.length ≥ 3 ∧ (head ++ fresh.drop head.length).take 3 = bom then 3 else 0) := by
    unfold stripBom
    by_cases hthree : head.length ≥ 3
    · simp only [hfirst hthree, hthree, true_and]
      split_ifs <;> simp
    · have hshort : content.length < 3 := by
        by_contra hlong
        apply hthree
        rw [hhead, List.length_take]
        omega
      have hnot : content.take 3 ≠ bom := by
        intro heq
        have hlen := congrArg List.length heq
        rw [List.length_take] at hlen
        simp only [bom, List.length_cons, List.length_nil] at hlen
        omega
      rw [if_neg hnot, if_neg (fun hboth => hthree hboth.1), List.drop_zero]
  set first := if head.length ≥ 3 ∧ (head ++ fresh.drop head.length).take 3 = bom then 3 else 0
    with hfirstDef
  have hbegin : first ≤ head.length := by
    rw [hfirstDef]
    split_ifs with hbom
    · exact hbom.1
    · exact Nat.zero_le _
  refine ⟨⟨head ++ fresh.drop head.length,
    if head.length = 2 * blockLen then some ⟨content.drop (2 * blockLen), true⟩ else none,
    first, head.length, 0⟩, ?_, ?_, rfl⟩
  · unfold init
    rw [← hhead, hpoke]
    rfl
  · have hdata : (((head ++ fresh.drop head.length).drop first).take (head.length - first)) =
        head.drop first := by
      rw [List.drop_append_of_le_length hbegin]
      exact List.take_left' (by rw [List.length_drop])
    refine ⟨?_, hbegin, hle, ?_, ?_, ?_⟩
    · simp only [List.length_append, List.length_drop]
      omega
    · simp only [data, pending]
      rw [hdata, hstrip]
      split_ifs with hfull
      · have hall : content = head ++ content.drop (2 * blockLen) := by
          rw [hhead, List.take_append_drop]
        conv_rhs => rw [hall]
        rw [List.drop_append_of_le_length hbegin]
        rfl
      · have hall : content = head := by
          rw [hhead, List.take_of_length_le]
          rw [hhead, List.length_take] at hfull
          omega
        rw [Option.elim_none, List.append_nil, ← hall]
    · intro hne
      simp only [pending] at hne
      split_ifs at hne with hfull
      · have hthree : first ≤ 3 := by
          rw [hfirstDef]
          split_ifs <;> omega
        exact ⟨hfull, by simp only; omega⟩
      · exact absurd rfl hne
    · intro r hr hstopped
      simp only at hr
      split_ifs at hr with hfull
      · rw [← Option.some.inj hr] at hstopped
        cases hstopped
      · cases hr

end Init

section Run
variable {blockLen : ℕ} {s : LineReader} {rest : Bytes}

/-- What the calls hand back: the lines up to one that is too long, on which the reader stays,
or up to the end of the file. -/
def outcomes (blockLen : ℕ) : ℕ → Bytes → ℕ → List Next
  | 0, _, _ => []
  | k + 1, rest, count =>
    if rest = [] then .null :: outcomes blockLen k rest count
    else if (rawLine rest).length < blockLen then
      .line (textOf (rawLine rest)) :: outcomes blockLen k (afterLine rest) ((count + 1) % 2 ^ 32)
    else
      .lineLengthLimitExceeded ((count + 1) % 2 ^ 32) ::
        outcomes blockLen k rest ((count + 1) % 2 ^ 32)

theorem calls_spec (k : ℕ) (h : Represents blockLen s rest) :
    ∃ s', calls blockLen k s = some (outcomes blockLen k rest s.fileLine, s') := by
  induction k generalizing s rest with
  | zero => exact ⟨s, rfl⟩
  | succ k ih =>
    by_cases hrest : rest = []
    · subst hrest
      obtain ⟨s', hcalls⟩ := ih h
      refine ⟨s', ?_⟩
      simp [calls, outcomes, nextLine_nil h, hcalls]
    · obtain ⟨t, hline, hstep⟩ := nextLine_spec h hrest
      by_cases hshort : (rawLine rest).length < blockLen
      · rw [if_pos hshort] at hstep
        obtain ⟨s', hcalls⟩ := ih hstep.2
        refine ⟨s', ?_⟩
        rw [hline] at hcalls
        simp [calls, outcomes, hrest, hshort, hstep.1, hcalls]
      · rw [if_neg hshort] at hstep
        obtain ⟨s', hcalls⟩ := ih hstep.2
        refine ⟨s', ?_⟩
        rw [hline] at hcalls
        simp [calls, outcomes, hrest, hshort, hstep.1, hline, hcalls]

theorem rawLines_cons (hrest : rest ≠ []) :
    rawLines rest = rawLine rest :: rawLines (afterLine rest) := by
  rw [rawLines, if_neg hrest]

/-- The lines that fit into a block, up to the first one that does not. -/
def goodLines (blockLen : ℕ) (rest : Bytes) : List Bytes :=
  (rawLines rest).takeWhile fun raw => raw.length < blockLen

/-- Behind them null pointers, or the exception for the next line over and over again. -/
def ending (blockLen k : ℕ) (rest : Bytes) (count : ℕ) : List Next :=
  if (goodLines blockLen rest).length = (rawLines rest).length then List.replicate k Next.null
  else (List.range k).map fun i =>
    .lineLengthLimitExceeded ((count + (goodLines blockLen rest).length + 1 + i) % 2 ^ 32)

theorem goodLines_cons (hrest : rest ≠ []) (hshort : (rawLine rest).length < blockLen) :
    goodLines blockLen rest = rawLine rest :: goodLines blockLen (afterLine rest) := by
  rw [goodLines, rawLines_cons hrest, List.takeWhile_cons_of_pos (by simpa using hshort)]
  rfl

theorem length_ending (k count : ℕ) : (ending blockLen k rest count).length = k := by
  unfold ending
  split_ifs <;> simp

/-- One call more takes one element more of the ending. -/
theorem take_ending (k count : ℕ) :
    (ending blockLen (k + 1) rest count).take k = ending blockLen k rest count := by
  unfold ending
  split_ifs
  · rw [List.take_replicate, Nat.min_eq_left (Nat.le_succ k)]
  · rw [← List.map_take, List.take_range, Nat.min_eq_left (Nat.le_succ k)]

theorem ending_cons (k count : ℕ) (hrest : rest ≠ [])
    (hshort : (rawLine rest).length < blockLen) :
    ending blockLen k rest count = ending blockLen k (afterLine rest) ((count + 1) % 2 ^ 32) := by
  unfold ending
  rw [goodLines_cons hrest hshort, rawLines_cons hrest, List.length_cons, List.length_cons]
  by_cases hall : (goodLines blockLen (afterLine rest)).length = (rawLines (afterLine rest)).length
  · rw [if_pos (by rw [hall]), if_pos hall]
  · rw [if_neg (by omega), if_neg hall]
    apply List.map_congr_left
    intro i _
    congr 1
    omega

theorem outcomes_eq (rest : Bytes) (k count : ℕ) :
    outcomes blockLen k rest count =
      (((goodLines blockLen rest).map fun raw => Next.line (textOf raw)) ++
        ending blockLen k rest count).take k := by
  induction k generalizing rest count with
  | zero => rfl
  | succ k ih =>
    by_cases hrest : rest = []
    · subst hrest
      have hlines : rawLines [] = [] := by rw [rawLines, if_pos rfl]
      rw [outcomes, if_pos rfl, ih [] count]
      simp [goodLines, ending, hlines, List.replicate_succ]
    · by_cases hshort : (rawLine rest).length < blockLen
      · have hnext := ih (afterLine rest) ((count + 1) % 2 ^ 32)
        rw [outcomes, if_neg hrest, if_pos hshort, hnext, goodLines_cons hrest hshort,
          List.map_cons, List.cons_append, List.take_succ_cons,
          ending_cons (k + 1) count hrest hshort, ← take_ending k]
        congr 1
        set lines := (goodLines blockLen (afterLine rest)).map fun raw => Next.line (textOf raw)
        rw [List.take_append, List.take_append, List.take_take, Nat.min_eq_left (Nat.sub_le k _)]
      · have hlines : goodLines blockLen rest = [] := by
          rw [goodLines, rawLines_cons hrest, List.takeWhile_cons_of_neg (by simpa using hshort)]
        have hmore : ¬ ([] : List Bytes).length = (rawLines rest).length := by
          rw [rawLines_cons hrest, List.length_cons, List.length_nil]
          omega
        have hnext := ih rest ((count + 1) % 2 ^ 32)
        have hself : ∀ m, (ending blockLen k rest m).take k = ending blockLen k rest m := fun m =>
          List.take_of_length_le (length_ending k m).le
        have hself' : (ending blockLen (k + 1) rest count).take (k + 1) =
            ending blockLen (k + 1) rest count :=
          List.take_of_length_le (length_ending (k + 1) count).le
        rw [outcomes, if_neg hrest, if_neg hshort, hnext, hlines, List.map_nil, List.nil_append,
          List.nil_append, hself, hself']
        unfold ending
        rw [hlines, if_neg hmore, if_neg hmore, List.range_succ_eq_map, List.map_cons, List.map_map,
          List.length_nil]
        congr 1
        apply List.map_congr_left
        intro i _
        simp only [Function.comp_apply]
        congr 1
        omega

theorem calls_init (hblock : 2 ≤ blockLen) {fresh : Bytes} (hfresh : fresh.length = 3 * blockLen)
    (content : Bytes) (k : ℕ) :
    ∃ s s', init blockLen fresh content = some s ∧
      calls blockLen k s = some (outcomes blockLen k (stripBom content) 0, s') := by
  obtain ⟨s, hinit, hrep, hcount⟩ := init_spec hblock hfresh content
  obtain ⟨s', hcalls⟩ := calls_spec k hrep
  rw [hcount] at hcalls
  exact ⟨s, s', hinit, hcalls⟩

end Run

end PrivacyComputing.CsvLineReader
