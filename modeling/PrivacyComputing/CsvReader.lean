import PrivacyComputing.CsvColumns
import PrivacyComputing.CsvLineReader

/-! `CSVReader` with its default policies, and the counting of items in `typed_csv_reader`: rows
are the lines of the file, and their number is what the line counter says at its end. -/
namespace PrivacyComputing.CsvReader
open CsvLineReader CsvColumns StreamText

/-- The types of a column that `parse` is defined for, other than the floating-point ones. -/
inductive ColType
  | integer (T : IntType)
  | char
  | text
  deriving DecidableEq, Repr

inductive Value
  | integer (n : ℤ)
  | char (c : UInt8)
  | text (s : Bytes)
  deriving DecidableEq, Repr

def parse (col : Bytes) : ColType → Except CsvError Value
  | .integer T => (parseInteger throwOnOverflow T col).map .integer
  | .char => (parseChar col).map .char
  | .text => .ok (.text col)

/-- `trim_chars<' ', '\t'>`. -/
def isTrimChar (c : UInt8) : Bool := c == 32 || c == 9

/-- `parse_helper`; a null pointer leaves its column alone. -/
def parseHelper : Row → List ColType → Except CsvError (List (Option Value))
  | _, [] => .ok []
  | [], _ :: types => do
    let values ← parseHelper [] types
    return none :: values
  | none :: row, _ :: types => do
    let values ← parseHelper row types
    return none :: values
  | some col :: row, type :: types => do
    let value ← parse col type
    let values ← parseHelper row types
    return some value :: values

/-- What `read_row` comes to: `false` at the end of the file, a row, or an exception. -/
inductive ReadRow
  | endOfFile
  | row (values : List (Option Value))
  | error (e : CsvError)
  deriving DecidableEq, Repr

/-- The column order of the constructor. -/
def colOrder (columnCount : ℕ) : List ℤ := (List.range columnCount).map fun i : ℕ => (i : ℤ)

/-- A line as a row; every column is set before it is looked at. -/
def parseRow (types : List ColType) (line : Bytes) : Except CsvError (List (Option Value)) := do
  let row ← parseLine isTrimChar (noQuoteEscape 44) line (colOrder types.length)
    (List.replicate types.length none)
  parseHelper row types

def rowOf (types : List ColType) : Next → ReadRow
  | .null => .endOfFile
  | .lineLengthLimitExceeded _ => .error .lineLengthLimitExceeded
  | .line line =>
    match parseRow types line with
    | .ok values => .row values
    | .error e => .error e

section Reader
variable (blockLen : ℕ)

def readRow (types : List ColType) (s : LineReader) : Option (ReadRow × LineReader) := do
  let (next, s) ← nextLine blockLen s
  return (rowOf types next, s)

def readRows (types : List ColType) : ℕ → LineReader → Option (List ReadRow × LineReader)
  | 0, s => some ([], s)
  | k + 1, s => do
    let (first, s) ← readRow blockLen types s
    let (rest, s) ← readRows types k s
    return (first :: rest, s)

/-- The loop of `get_item_number` over `next_line`, with `turns` of it allowed. -/
def countLines : (turns : ℕ) → LineReader → Option (Except CsvError ℕ)
  | 0, _ => none
  | turns + 1, s =>
    match nextLine blockLen s with
    | none => none
    | some (.null, s) => some (.ok s.fileLine)
    | some (.lineLengthLimitExceeded _, _) => some (.error .lineLengthLimitExceeded)
    | some (.line _, s) => countLines turns s

/-- A reader of its own over the same file. The `unsigned` counter comes back as an `int`. -/
def getItemNumber (turns : ℕ) (fresh content : Bytes) : Option (Except CsvError ℤ) := do
  let s ← init blockLen fresh content
  let count ← countLines blockLen turns s
  return count.map fun n => Int.bmod n (2 ^ 32)

end Reader

section Rows
variable {blockLen : ℕ} {types : List ColType}

theorem readRows_eq (k : ℕ) {s s' : LineReader} {nexts : List Next}
    (h : calls blockLen k s = some (nexts, s')) :
    readRows blockLen types k s = some (nexts.map (rowOf types), s') := by
  induction k generalizing s nexts with
  | zero =>
    cases h
    rfl
  | succ k ih =>
    simp only [calls] at h
    cases hnext : nextLine blockLen s with
    | none =>
      rw [hnext] at h
      cases h
    | some first =>
      rw [hnext] at h
      cases hrest : calls blockLen k first.2 with
      | none => simp [hrest] at h
      | some rest =>
        simp only [hrest, Option.bind_eq_bind, Option.bind_some, Option.pure_def, Option.some.injEq,
          Prod.mk.injEq] at h
        obtain ⟨rfl, rfl⟩ := h
        have hstep := ih hrest
        simp [readRows, readRow, hnext, hstep]

/-- The counter stands at the number of lines that were handed out. -/
theorem countLines_spec {s : LineReader} {rest : Bytes} (h : Represents blockLen s rest)
    (hcount : s.fileLine < 2 ^ 32) (hfit : ∀ raw ∈ rawLines rest, raw.length < blockLen)
    {turns : ℕ} (hturns : (rawLines rest).length < turns) :
    countLines blockLen turns s = some (.ok ((s.fileLine + (rawLines rest).length) % 2 ^ 32)) := by
  induction turns generalizing s rest with
  | zero => omega
  | succ turns ih =>
    by_cases hrest : rest = []
    · subst hrest
      have hlines : rawLines [] = [] := by rw [rawLines, if_pos rfl]
      have hnull := nextLine_nil h
      have hsame : (s.fileLine + [].length (α := Bytes)) % 2 ^ 32 = s.fileLine :=
        Nat.mod_eq_of_lt hcount
      rw [hlines, hsame]
      simp [countLines, hnull]
    · rw [rawLines_cons hrest] at hfit hturns ⊢
      rw [List.length_cons] at hturns ⊢
      obtain ⟨s', hline, hstep⟩ := nextLine_spec h hrest
      rw [if_pos (hfit _ List.mem_cons_self)] at hstep
      have hnext := ih hstep.2 (by omega) (fun raw hraw => hfit raw (List.mem_cons_of_mem _ hraw))
        (by omega)
      have hunfold : countLines blockLen (turns + 1) s = countLines blockLen turns s' := by
        simp [countLines, hstep.1]
      rw [hunfold, hnext, hline]
      congr 2
      omega

/-- The number of items is the number of rows: `read_row` comes to the end of the file after
exactly that many calls, whether its rows can be parsed or not. -/
theorem getItemNumber_eq_rows (hblock : 2 ≤ blockLen) {fresh content : Bytes}
    (hfresh : fresh.length = 3 * blockLen)
    (hfit : ∀ raw ∈ rawLines (stripBom content), raw.length < blockLen)
    (hcount : (rawLines (stripBom content)).length < 2 ^ 31) {turns : ℕ}
    (hturns : (rawLines (stripBom content)).length < turns) (types : List ColType) (k : ℕ) :
    getItemNumber blockLen turns fresh content =
      some (.ok ((rawLines (stripBom content)).length : ℤ)) ∧
    ∃ s s', init blockLen fresh content = some s ∧ readRows blockLen types k s =
      some ((((rawLines (stripBom content)).map fun raw => rowOf types (.line (textOf raw))) ++
        List.replicate k ReadRow.endOfFile).take k, s') := by
  have hgood : goodLines blockLen (stripBom content) = rawLines (stripBom content) :=
    List.takeWhile_eq_self_iff.mpr fun raw hraw => by simpa using hfit raw hraw
  constructor
  · obtain ⟨s, hinit, hrep, hzero⟩ := init_spec hblock hfresh content
    have hlines := countLines_spec hrep (by omega) hfit hturns
    have hmod : (s.fileLine + (rawLines (stripBom content)).length) % 2 ^ 32 =
        (rawLines (stripBom content)).length := by omega
    have hint : Int.bmod ((rawLines (stripBom content)).length : ℤ) (2 ^ 32) =
        (rawLines (stripBom content)).length := by
      rw [Int.bmod_eq_of_le] <;> omega
    rw [hmod] at hlines
    unfold getItemNumber
    rw [hinit, Option.bind_eq_bind, Option.bind_some, hlines, Option.bind_eq_bind, Option.bind_some]
    exact congrArg (fun n => some (Except.ok n)) hint
  · obtain ⟨s, s', hinit, hcalls⟩ := calls_init hblock hfresh content k
    refine ⟨s, s', hinit, ?_⟩
    rw [readRows_eq k hcalls, outcomes_eq]
    have hending : ending blockLen k (stripBom content) 0 = List.replicate k Next.null := by
      rw [ending, hgood, if_pos rfl]
    rw [hending, hgood, List.map_take, List.map_append, List.map_replicate, List.map_map]
    rfl

theorem getItemNumber_eq_rows_two :
    getItemNumber 4 3 (List.replicate 12 0) [55, 10, 120] =
      some (.ok ((rawLines (stripBom [55, 10, 120])).length : ℤ)) ∧
    ∃ s s', init 4 (List.replicate 12 0) [55, 10, 120] = some s ∧
      readRows 4 [.integer ⟨true, .w32⟩] 3 s =
      some ((((rawLines (stripBom [55, 10, 120])).map fun raw =>
        rowOf [.integer ⟨true, .w32⟩] (.line (textOf raw))) ++
        List.replicate 3 ReadRow.endOfFile).take 3, s') := by
  have hlines : rawLines (stripBom [55, 10, 120]) = [[55], [120]] := by
    simp [stripBom, bom, rawLines, rawLine, afterLine]
  exact getItemNumber_eq_rows (by decide) rfl (by rw [hlines]; decide) (by rw [hlines]; decide)
    (by rw [hlines]; decide) [.integer ⟨true, .w32⟩] 3

end Rows

section Columns

/-- With the column order of the constructor the columns go to their places one after another. -/
theorem assign_range' (texts : List Bytes) (done : Row) :
    assign (((List.range' done.length texts.length).map fun i : ℕ => (i : ℤ)).zip texts)
      (done ++ List.replicate texts.length none) = done ++ texts.map some := by
  induction texts generalizing done with
  | nil => simp [assign]
  | cons text texts ih =>
    have hplace : (done ++ List.replicate (text :: texts).length none).set done.length (some text) =
        (done ++ [some text]) ++ List.replicate texts.length none := by
      rw [List.length_cons, List.replicate_succ, List.set_append_right _ _ le_rfl, Nat.sub_self,
        List.set_cons_zero, List.append_assoc, List.singleton_append]
    have hnext := ih (done ++ [some text])
    rw [List.length_append, List.length_singleton] at hnext
    rw [List.length_cons, List.range'_succ, List.map_cons, List.zip_cons_cons, assign,
      if_pos (by omega), Int.toNat_natCast, ← List.length_cons (a := text), hplace, hnext,
      List.map_cons, List.append_assoc, List.singleton_append]

theorem assign_colOrder (texts : List Bytes) :
    assign ((colOrder texts.length).zip texts) (List.replicate texts.length none) =
      texts.map some := by
  have hall := assign_range' texts []
  rw [List.nil_append, List.nil_append, List.length_nil, ← List.range_eq_range'] at hall
  exact hall

theorem parseHelper_map (texts : List Bytes) (types : List ColType)
    (hlength : texts.length = types.length) (values : List (Option Value)) :
    parseHelper (texts.map some) types = .ok values ↔
      ∃ vs, values = vs.map some ∧
        List.Forall₂ (fun p v => parse p.1 p.2 = .ok v) (texts.zip types) vs := by
  induction texts generalizing types values with
  | nil =>
    have hnil : types = [] := List.length_eq_zero_iff.mp hlength.symm
    subst hnil
    constructor
    · intro h
      cases h
      exact ⟨[], rfl, .nil⟩
    · rintro ⟨vs, rfl, hvs⟩
      cases hvs
      rfl
  | cons text texts ih =>
    cases types with
    | nil => cases hlength
    | cons type types =>
      have hrest : texts.length = types.length := Nat.succ.inj hlength
      rw [List.map_cons, parseHelper]
      cases hparse : parse text type with
      | error e =>
        constructor
        · intro h
          cases h
        · rintro ⟨vs, -, hvs⟩
          cases hvs with
          | cons hv _ =>
            rw [hparse] at hv
            cases hv
      | ok v =>
        cases hmore : parseHelper (texts.map some) types with
        | error e =>
          constructor
          · intro h
            cases h
          · rintro ⟨vs, rfl, hvs⟩
            cases hvs with
            | cons hv hvs =>
              have hok := (ih types hrest _).mpr ⟨_, rfl, hvs⟩
              rw [hmore] at hok
              cases hok
        | ok more =>
          have hiff := ih types hrest more
          rw [hmore] at hiff
          constructor
          · intro h
            have heq : some v :: more = values := Except.ok.inj h
            obtain ⟨vs, hmap, hvs⟩ := hiff.mp rfl
            exact ⟨v :: vs, by rw [← heq, hmap, List.map_cons], .cons hparse hvs⟩
          · rintro ⟨vs, rfl, hvs⟩
            cases hvs with
            | @cons _ w _ ws hv hvs =>
              rw [hparse] at hv
              have hok := (ih types hrest (ws.map some)).mpr ⟨ws, rfl, hvs⟩
              rw [hmore] at hok
              have hmap : more = ws.map some := Except.ok.inj hok
              rw [hmap, Except.ok.inj hv]
              rfl

/-- A line is a row exactly when, up to its zero byte, it has a column for every type, counted by
its commas, and every column, without the blanks around it, is a text of its type. -/
theorem parseRow_exact (types : List ColType) (line : Bytes) (values : List (Option Value)) :
    parseRow types line = .ok values ↔
      ((untilZero line).splitOn 44).length = types.length ∧ ∃ vs, values = vs.map some ∧
        List.Forall₂ (fun p v => parse p.1 p.2 = .ok v)
          ((((untilZero line).splitOn 44).map (trim isTrimChar)).zip types) vs := by
  have hcount : (colOrder types.length).length = types.length := by simp [colOrder]
  have hline := @parseLine_noQuote isTrimChar 44 line (colOrder types.length)
    (List.replicate types.length none)
  rw [hcount] at hline
  unfold parseRow
  by_cases hlength : ((untilZero line).splitOn 44).length = types.length
  · have htexts : (((untilZero line).splitOn 44).map (trim isTrimChar)).length = types.length := by
      rw [List.length_map, hlength]
    have hassign := assign_colOrder (((untilZero line).splitOn 44).map (trim isTrimChar))
    rw [htexts] at hassign
    rw [if_neg (by omega), if_neg (by omega), hassign] at hline
    rw [hline]
    have hhelper := parseHelper_map _ types htexts values
    constructor
    · intro h
      exact ⟨hlength, hhelper.mp h⟩
    · intro h
      exact hhelper.mpr h.2
  · have herror : ∃ e, parseLine isTrimChar (noQuoteEscape 44) line (colOrder types.length)
        (List.replicate types.length none) = .error e := by
      rw [hline]
      by_cases hfew : ((untilZero line).splitOn 44).length < types.length
      · rw [if_pos hfew]
        exact ⟨_, rfl⟩
      · rw [if_neg hfew, if_pos (by omega)]
        exact ⟨_, rfl⟩
    obtain ⟨e, he⟩ := herror
    rw [he]
    constructor
    · intro h
      cases h
    · intro h
      exact absurd h.1 hlength

end Columns

end PrivacyComputing.CsvReader
