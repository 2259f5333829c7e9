import Mathlib.Algebra.BigOperators.Group.List.Basic
import Mathlib.Data.List.Chain
import PrivacyComputing.BlockFileWrite

/-! The block table of `blockfile_impl_r` while items are appended to an empty file. One more
item either opens a block at the end of the last one or makes the last one longer; what the
table says about items and file positions is kept by both. -/
namespace PrivacyComputing.BlockFile
open LittleEndian Calls FileStream

/-- The bytes that the records of the items take. -/
def extent (items : List Bytes) : ℕ := (items.map fun b => b.length + 8).sum

/-- The blocks cut the items into intervals of the limit, and the file in the same way. A limit
of zero acts as one. -/
structure Table (limit : ℕ) (items : List Bytes) (blocks : List BlockInfo) : Prop where
  first : ∀ b ∈ blocks.head?, b.startItemIndex = 0 ∧ b.startFilePos = 0
  consecutive : blocks.IsChain fun b c =>
    c.startItemIndex = b.endItemIndex ∧ c.startFilePos = b.endFilePos
  last : (blocks.getLast?.map (·.endItemIndex)).getD 0 = items.length
  nonempty : ∀ b ∈ blocks, b.startItemIndex < b.endItemIndex ∧ b.endItemIndex ≤ items.length
  full : ∀ b ∈ blocks.dropLast, b.endItemIndex - b.startItemIndex = max limit 1
  atMost : ∀ b ∈ blocks, b.endItemIndex - b.startItemIndex ≤ max limit 1
  span : ∀ b ∈ blocks, b.endFilePos =
    b.startFilePos + extent ((items.take b.endItemIndex).drop b.startItemIndex)

/-- What a write session has made of the object and the file after the items. -/
structure SessionTable (P : Params) (items : List Bytes) (o : FileObject) : Prop where
  table : Table P.itemNumPerBlockLimit items o.mBlockInfos
  itemNumber : o.mHeader.itemNumber = items.length
  blockNumber : o.mHeader.blockNumber = o.mBlockInfos.length
  offsets : ∀ k (h : k < items.length),
    (o.mFile.content.drop (extent (items.take k))).take ((items.get ⟨k, h⟩).length + 8) =
      record (items.get ⟨k, h⟩)

@[simp] theorem extent_nil : extent [] = 0 := rfl

@[simp] theorem extent_snoc (items : List Bytes) (b : Bytes) :
    extent (items ++ [b]) = extent items + (b.length + 8) := by
  simp [extent]

theorem extent_eq (items : List Bytes) : extent items = (records items).length := by
  induction items using List.reverseRecOn with
  | nil => rfl
  | append_singleton items b ih =>
    rw [extent_snoc, ih, records_snoc, List.length_append, record_length]

section Push
variable {limit : ℕ} {items : List Bytes} {front : List BlockInfo} {last : BlockInfo}

/-- What lies before the end of the items does not change when one is added. -/
theorem Table.snoc {blocks : List BlockInfo} (h : Table limit items blocks) (b : Bytes)
    {c : BlockInfo} (hc : c ∈ blocks) :
    (c.startItemIndex < c.endItemIndex ∧ c.endItemIndex ≤ (items ++ [b]).length) ∧
      c.endFilePos = c.startFilePos +
        extent (((items ++ [b]).take c.endItemIndex).drop c.startItemIndex) := by
  have hnonempty := h.nonempty c hc
  constructor
  · rw [List.length_append]
    omega
  · rw [List.take_append_of_le_length hnonempty.2]
    exact h.span c hc

theorem take_snoc (items : List Bytes) (b : Bytes) :
    (items ++ [b]).take (items.length + 1) = items ++ [b] :=
  List.take_of_length_le (by simp)

theorem table_first (b : Bytes) : Table limit [b] [⟨0, 1, 0, b.length + 8⟩] where
  first := by simp
  consecutive := by simp
  last := rfl
  nonempty := by simp
  full := by simp
  atMost := by simp
  span := by simp [extent]

/-- The last block is full: a new one begins where it ends. -/
theorem table_open (h : Table limit items (front ++ [last])) (b : Bytes)
    (hfull : last.endItemIndex - last.startItemIndex ≥ limit) :
    Table limit (items ++ [b]) (front ++ [last] ++ [⟨last.endItemIndex, last.endItemIndex + 1,
      last.endFilePos, last.endFilePos + b.length + 8⟩]) := by
  have hend : last.endItemIndex = items.length := by simpa using h.last
  have hlast := h.nonempty last (by simp)
  have hmost := h.atMost last (by simp)
  constructor
  · intro c hc
    apply h.first
    cases front <;> simpa using hc
  · rw [List.isChain_append]
    refine ⟨h.consecutive, List.isChain_singleton _, ?_⟩
    intro c hc d hd
    simp only [List.getLast?_concat, Option.mem_some] at hc
    simp only [List.head?_cons, Option.mem_some] at hd
    subst hc hd
    exact ⟨rfl, rfl⟩
  · simp [hend]
  · rw [List.forall_mem_append, List.forall_mem_singleton]
    constructor
    · intro c hc
      exact (h.snoc b hc).1
    · simp [hend]
  · rw [List.dropLast_concat, List.forall_mem_append, List.forall_mem_singleton]
    constructor
    · intro c hc
      exact h.full c (by rw [List.dropLast_concat]; exact hc)
    · omega
  · rw [List.forall_mem_append, List.forall_mem_singleton]
    constructor
    · exact h.atMost
    · dsimp only
      omega
  · rw [List.forall_mem_append, List.forall_mem_singleton]
    constructor
    · intro c hc
      exact (h.snoc b hc).2
    · rw [hend, take_snoc, List.drop_left]
      simp [extent, Nat.add_assoc]

/-- The last block has room: it grows by one item. -/
theorem table_grow (h : Table limit items (front ++ [last])) (b : Bytes)
    (hroom : ¬ last.endItemIndex - last.startItemIndex ≥ limit) :
    Table limit (items ++ [b]) (front ++ [{ last with
      endItemIndex := last.endItemIndex + 1
      endFilePos := last.endFilePos + b.length + 8 }]) := by
  have hend : last.endItemIndex = items.length := by simpa using h.last
  have hlast := h.nonempty last (by simp)
  have hfront : ∀ c ∈ front, c ∈ front ++ [last] := fun c hc => List.mem_append_left _ hc
  constructor
  · intro c hc
    cases front with
    | nil =>
      simp only [List.nil_append, List.head?_cons, Option.mem_some] at hc
      subst hc
      exact h.first last rfl
    | cons d front => exact h.first c hc
  · have hchain := h.consecutive
    rw [List.isChain_append] at hchain ⊢
    refine ⟨hchain.1, List.isChain_singleton _, ?_⟩
    intro c hc d hd
    simp only [List.head?_cons, Option.mem_some] at hd
    subst hd
    exact hchain.2.2 c hc last rfl
  · simp [hend]
  · rw [List.forall_mem_append, List.forall_mem_singleton]
    constructor
    · intro c hc
      exact (h.snoc b (hfront c hc)).1
    · simp only [List.length_append, List.length_singleton]
      omega
  · rw [List.dropLast_concat]
    intro c hc
    exact h.full c (by rw [List.dropLast_concat]; exact hc)
  · rw [List.forall_mem_append, List.forall_mem_singleton]
    constructor
    · intro c hc
      exact h.atMost c (hfront c hc)
    · dsimp only
      omega
  · rw [List.forall_mem_append, List.forall_mem_singleton]
    constructor
    · intro c hc
      exact (h.snoc b (hfront c hc)).2
    · have hspan := h.span last (by simp)
      rw [hend, List.take_length] at hspan
      dsimp only
      rw [hend, take_snoc, List.drop_append_of_le_length (by omega), extent_snoc, hspan]
      omega

theorem pushItem_concat (limit : ℕ) (front : List BlockInfo) (last : BlockInfo) (len : ℕ) :
    pushItem limit (front ++ [last]) len =
      if last.endItemIndex - last.startItemIndex ≥ limit then
        front ++ [last] ++ [⟨last.endItemIndex, last.endItemIndex + 1, last.endFilePos,
          last.endFilePos + len + 8⟩]
      else front ++ [{ last with
        endItemIndex := last.endItemIndex + 1
        endFilePos := last.endFilePos + len + 8 }] := by
  simp only [pushItem, List.getLast?_concat, List.dropLast_concat]

theorem table_push {blocks : List BlockInfo} (h : Table limit items blocks) (b : Bytes) :
    Table limit (items ++ [b]) (pushItem limit blocks b.length) := by
  cases blocks using List.reverseRecOn with
  | nil =>
    have hnil : items = [] := List.eq_nil_of_length_eq_zero h.last.symm
    subst hnil
    exact table_first b
  | append_singleton front last =>
    rw [pushItem_concat]
    split_ifs with hlimit
    · exact table_open h b hlimit
    · exact table_grow h b hlimit

theorem table_blocksOf (limit : ℕ) (items : List Bytes) :
    Table limit items (blocksOf limit items) := by
  induction items using List.reverseRecOn with
  | nil =>
    constructor <;> simp [blocksOf]
  | append_singleton items b ih =>
    rw [blocksOf_snoc]
    exact table_push ih b

end Push

theorem records_append (xs ys : List Bytes) : records (xs ++ ys) = records xs ++ records ys := by
  simp [records]

/-- The record of an item begins where the records before it end. -/
theorem record_at_extent (items : List Bytes) (k : ℕ) (h : k < items.length) :
    ((records items).drop (extent (items.take k))).take ((items.get ⟨k, h⟩).length + 8) =
      record (items.get ⟨k, h⟩) := by
  have hsplit : items = items.take k ++ (items.get ⟨k, h⟩ :: items.drop (k + 1)) := by
    rw [List.get_eq_getElem, ← List.drop_eq_getElem_cons h, List.take_append_drop]
  have hrecords : records items = records (items.take k) ++
      (record (items.get ⟨k, h⟩) ++ records (items.drop (k + 1))) := by
    rw [← List.singleton_append, ← List.append_assoc] at hsplit
    conv_lhs => rw [hsplit]
    rw [records_append, records_snoc, List.append_assoc]
  rw [hrecords, extent_eq, List.drop_left, ← record_length, List.take_left]

variable (P : Params)

/-- A write session on a new object, up to its close. -/
def writeSession (items : List Bytes) : FileM Unit := do
  openForWrite
  appendItems P items

theorem sessionTable_written (items : List Bytes) : SessionTable P items (written P items) where
  table := table_blocksOf _ items
  itemNumber := rfl
  blockNumber := rfl
  offsets := by
    intro k h
    exact record_at_extent items k h

/-- The block table of a write session after any items. -/
theorem block_table (items : List Bytes) :
    ∃ o, writeSession P items (newObject P) = .ok () o ∧ SessionTable P items o := by
  have hopen : openForWrite (newObject P) = .ok () { newObject P with mFile := openOut } := rfl
  rw [writeSession, bind_ok hopen]
  cases items with
  | nil =>
    refine ⟨_, rfl, ?_⟩
    constructor
    · exact table_blocksOf _ []
    · rfl
    · rfl
    · intro k h
      cases h
  | cons b items =>
    exact ⟨written P (b :: items), appendItems_run P (b :: items) (by simp),
      sessionTable_written P _⟩

end PrivacyComputing.BlockFile
