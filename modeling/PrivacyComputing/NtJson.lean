import PrivacyComputing.HexCodec
import PrivacyComputing.StreamText

/-! `ntjson`: an `ntobject` written to a property tree and read back, column by column. Scalars go
through the translators of the tree, the elements of a vector through `to_ptree` and `from_ptree`,
and objects recur on their columns. -/
namespace PrivacyComputing.NtJson
open StreamText

inductive PTree
  | node (data : Bytes) (children : List (Bytes × PTree))

def PTree.data : PTree → Bytes
  | node data _ => data

def PTree.children : PTree → List (Bytes × PTree)
  | node _ children => children

def PTree.empty : PTree := node [] []

def PTree.leaf (data : Bytes) : PTree := node data []

/-- The name of a column is a path of one step: it is not empty and has no dot. -/
structure ColumnName where
  text : Bytes
  nonempty : text ≠ []
  noDot : (46 : UInt8) ∉ text

/-- The children named `name` lose their data to the new value, or a child is added. -/
def putIn (name : Bytes) (value : Bytes) : List (Bytes × PTree) → List (Bytes × PTree)
  | [] => [(name, .leaf value)]
  | (key, child) :: rest =>
    if key = name then (key, .node value child.children) :: rest
    else (key, child) :: putIn name value rest

def PTree.put (pt : PTree) (name : ColumnName) (value : Bytes) : PTree :=
  node pt.data (putIn name.text value pt.children)

def PTree.addChild (pt : PTree) (name : ColumnName) (child : PTree) : PTree :=
  node pt.data (pt.children ++ [(name.text, child)])

/-- `find` and `get_child` with the name of a column. -/
def PTree.find (pt : PTree) (name : ColumnName) : Option PTree :=
  (pt.children.find? fun entry => entry.1 == name.text).map Prod.snd

inductive Failure
  | badData | invalidHex | indeterminate
  deriving DecidableEq, Repr

@[ext] structure Integer (T : IntType) where
  val : ℤ
  holds : T.Holds val

mutual

inductive Column : Type
  | integer (T : IntType)
  | string
  | bytes
  | integers (T : IntType)
  | objects (s : Schema)
  | object (s : Schema)

/-- The columns of an `ntobject`. -/
inductive Schema : Type
  | nil
  | cons (name : ColumnName) (column : Column) (rest : Schema)

end

mutual

def Column.Value : Column → Type
  | .integer T => Integer T
  | .string => Bytes
  | .bytes => Bytes
  | .integers T => List (Integer T)
  | .objects s => List s.Value
  | .object s => s.Value

def Schema.Value : Schema → Type
  | .nil => Unit
  | .cons _ column rest => column.Value × rest.Value

end

def Integer.zero (T : IntType) : Integer T :=
  ⟨0, by cases T with | mk signed width => cases signed <;> cases width <;> decide⟩

mutual

def Column.default : (c : Column) → c.Value
  | .integer T => Integer.zero T
  | .string => ([] : Bytes)
  | .bytes => ([] : Bytes)
  | .integers T => ([] : List (Integer T))
  | .objects s => ([] : List s.Value)
  | .object s => s.default

def Schema.default : (s : Schema) → s.Value
  | .nil => ()
  | .cons _ column rest => (column.default, rest.default)

end

section Scalars

/-- The translator of the tree reads an integer of 8 bits as one of 32; the value has to be in
range and to be all of the text. -/
def getInteger (T : IntType) (text : Bytes) : Except Failure (Integer T) :=
  let wide := if T.width = .w8 then ⟨T.signed, .w32⟩ else T
  let e := extractInteger wide text
  if h : T.Holds e.value then
    if e.fail || !(e.rest.dropWhile isSpace).isEmpty then .error .badData else .ok ⟨e.value, h⟩
  else .error .badData

def putBytes (b : Bytes) : Bytes := (HexCodec.asHex b).getD []

/-- The translator of `byte.h`: only the bare fail bit counts as a failure. -/
def getBytes (text : Bytes) : Except Failure Bytes :=
  let word := extractWord text
  match HexCodec.asRaw word.text with
  | none => .error .invalidHex
  | some raw => if word.failbit && !word.eofbit then .error .badData else .ok raw

/-- The value of a character in an integer type of 8 bits. -/
def charValue (T : IntType) (c : UInt8) : ℤ :=
  if T.signed && c ≥ 128 then c.toNat - 256 else c.toNat

theorem charValue_holds {T : IntType} (h : T.width = .w8) (c : UInt8) :
    T.Holds (charValue T c) := by
  obtain ⟨signed, width⟩ := T
  cases h
  have hc := c.toNat_lt
  cases signed with
  | false =>
    simp only [IntType.Holds, IntType.low, IntType.high, charValue, Bool.false_and,
      Bool.false_eq_true, if_false]
    omega
  | true =>
    simp only [IntType.Holds, IntType.low, IntType.high, charValue, Bool.true_and,
      decide_eq_true_eq, ge_iff_le, UInt8.le_iff_toNat_le, UInt8.reduceToNat]
    split_ifs <;> omega

/-- `from_ptree` of an integer type: the stream is not tested after the extraction. -/
def fromPtree (T : IntType) (text : Bytes) : Except Failure (Integer T) :=
  if h : T.width = .w8 then
    match extractChar text with
    | none => .error .indeterminate
    | some c => .ok ⟨charValue T c, charValue_holds h c⟩
  else .ok ⟨(extractInteger T text).value, extractInteger_holds T text⟩

end Scalars

mutual

/-- `ptree_put_helper`: an object and a vector become a child, a scalar the text of one. -/
def Column.put (name : ColumnName) (pt : PTree) : (c : Column) → c.Value → PTree
  | .integer _, v => pt.put name (toText v.val)
  | .string, v => pt.put name v
  | .bytes, v => pt.put name (putBytes v)
  | .integers T, v =>
    pt.addChild name (.node [] (v.map fun (item : Integer T) => ([], .leaf (toText item.val))))
  | .objects s, v =>
    pt.addChild name (.node [] (v.map fun (item : s.Value) => ([], s.write .empty item)))
  | .object s, v => pt.addChild name (s.write .empty v)

/-- `to_json_helper`, from a column on. -/
def Schema.write : (s : Schema) → PTree → s.Value → PTree
  | .nil, pt, _ => pt
  | .cons name column rest, pt, v => rest.write (column.put name pt v.1) v.2

end

mutual

/-- `ptree_get_helper` with the child that was found. -/
def Column.parse (child : PTree) : (c : Column) → Except Failure c.Value
  | .integer T => getInteger T child.data
  | .string => .ok child.data
  | .bytes => getBytes child.data
  | .integers T => child.children.mapM fun entry => fromPtree T entry.2.data
  | .objects s => child.children.mapM fun entry => s.read entry.2 s.default
  | .object s => s.read child s.default

/-- `from_json_helper`, from a column on; a column without a child keeps its value. -/
def Schema.read : (s : Schema) → PTree → s.Value → Except Failure s.Value
  | .nil, _, data => .ok data
  | .cons name column rest, pt, data => do
    let v ← match pt.find name with
      | none => .ok data.1
      | some child => column.parse child
    let vs ← rest.read pt data.2
    return (v, vs)

end

/-- The value that comes back from the tree it was written to. -/
def roundTrip (s : Schema) (v : s.Value) : Except Failure s.Value :=
  s.read (s.write .empty v) s.default

section Statement

def Schema.names : Schema → List Bytes
  | .nil => []
  | .cons name _ rest => name.text :: rest.names

mutual

/-- In every object the names of the columns are different. -/
def Column.Distinct : Column → Prop
  | .objects s => s.Distinct
  | .object s => s.Distinct
  | _ => True

def Schema.Distinct : Schema → Prop
  | .nil => True
  | .cons name column rest => name.text ∉ rest.names ∧ column.Distinct ∧ rest.Distinct

end

mutual

/-- The integers of 8 bits that are elements of vectors are all 53. -/
def Column.Fives : (c : Column) → c.Value → Prop
  | .integers T, v =>
    let items : List (Integer T) := v
    T.width = .w8 → ∀ item ∈ items, item.val = 53
  | .objects s, v =>
    let items : List s.Value := v
    ∀ item ∈ items, s.Fives item
  | .object s, v => s.Fives v
  | .integer _, _ => True
  | .string, _ => True
  | .bytes, _ => True

def Schema.Fives : (s : Schema) → s.Value → Prop
  | .nil, _ => True
  | .cons _ column rest, v => column.Fives v.1 ∧ rest.Fives v.2

end

mutual

/-- No vector has integers of 8 bits. -/
def Column.Wide : Column → Prop
  | .integers T => T.width ≠ .w8
  | .objects s => s.Wide
  | .object s => s.Wide
  | _ => True

def Schema.Wide : Schema → Prop
  | .nil => True
  | .cons _ column rest => column.Wide ∧ rest.Wide

end

end Statement

section Scalars

/-- The type that the translator reads holds all values of `T`. -/
theorem holds_wide {T : IntType} {n : ℤ} (h : T.Holds n) :
    (if T.width = .w8 then (⟨T.signed, .w32⟩ : IntType) else T).Holds n := by
  obtain ⟨hlow, hhigh⟩ := h
  obtain ⟨signed, width⟩ := T
  cases width with
  | w8 =>
    cases signed with
    | false =>
      simp only [IntType.low, IntType.high] at hlow hhigh
      simp only [if_true, IntType.Holds, IntType.low, IntType.high]
      omega
    | true =>
      simp only [IntType.low, IntType.high] at hlow hhigh
      simp only [if_true, IntType.Holds, IntType.low, IntType.high]
      omega
  | w16 => exact ⟨hlow, hhigh⟩
  | w32 => exact ⟨hlow, hhigh⟩
  | w64 => exact ⟨hlow, hhigh⟩

theorem range_of_w8 {T : IntType} {n : ℤ} (h : T.Holds n) (hwidth : T.width = .w8) :
    -128 ≤ n ∧ n ≤ 255 := by
  obtain ⟨hlow, hhigh⟩ := h
  obtain ⟨signed, width⟩ := T
  cases hwidth
  cases signed with
  | false =>
    simp only [IntType.low, IntType.high] at hlow hhigh
    omega
  | true =>
    simp only [IntType.low, IntType.high] at hlow hhigh
    omega

theorem getInteger_toText {T : IntType} (v : Integer T) : getInteger T (toText v.val) = .ok v := by
  have hextract := extractInteger_toText (holds_wide v.holds)
  simp only [getInteger, hextract]
  rw [dif_pos v.holds]
  rfl

theorem not_space_of_hexDigit {c : UInt8} (h : HexCodec.HexDigit c) : isSpace c = false := by
  simp only [HexCodec.HexDigit, UInt8.le_iff_toNat_le, UInt8.reduceToNat] at h
  exact isSpace_eq_false (by omega)

/-- Also the empty string comes back: at its end of file the stream has not only the fail bit. -/
theorem getBytes_putBytes (b : Bytes) : getBytes (putBytes b) = .ok b := by
  obtain ⟨hex, hhex, hraw, hdigits⟩ := HexCodec.asHex_digits b
  have hput : putBytes b = hex := by rw [putBytes, hhex, Option.getD_some]
  rw [hput, getBytes]
  by_cases hempty : hex = []
  · subst hempty
    simp [extractWord_nil, hraw]
  · have hword := extractWord_of_no_space hempty fun c hc => not_space_of_hexDigit (hdigits c hc)
    simp [hword, hraw]

/-- An element of 8 bits is read as one character, an element of another width as a number. -/
theorem fromPtree_toText_iff {T : IntType} (v : Integer T) :
    fromPtree T (toText v.val) = .ok v ↔ (T.width = .w8 → v.val = 53) := by
  by_cases hwidth : T.width = .w8
  · obtain ⟨c, hchar, hcode⟩ := extractChar_toText v.val
    have hvalue : charValue T c = c.toNat := by
      have hsmall : ¬ (128 : UInt8) ≤ c := by
        simp only [UInt8.le_iff_toNat_le, UInt8.reduceToNat]
        omega
      simp [charValue, hsmall]
    have hrange := range_of_w8 v.holds hwidth
    have hiff := extractChar_toText_iff hrange.1 hrange.2
    rw [hchar, Option.map_some, Option.some.injEq] at hiff
    have hread : fromPtree T (toText v.val) =
        .ok ⟨charValue T c, charValue_holds hwidth c⟩ := by
      simp only [fromPtree, dif_pos hwidth, hchar]
    have hcode53 : charValue T c = v.val ↔ v.val = 53 := by rw [hvalue, hiff]
    rw [hread, Except.ok.injEq, Integer.ext_iff]
    simp [hwidth, hcode53]
  · have hextract := extractInteger_toText v.holds
    have hread : fromPtree T (toText v.val) = .ok v := by
      simp only [fromPtree, dif_neg hwidth, hextract]
    simp [hread, hwidth]

end Scalars
section Tree

/-- The child a column becomes. -/
def Column.tree : (c : Column) → c.Value → PTree
  | .integer _, v => .leaf (toText v.val)
  | .string, v => .leaf v
  | .bytes, v => .leaf (putBytes v)
  | .integers T, v =>
    .node [] (v.map fun (item : Integer T) => ([], .leaf (toText item.val)))
  | .objects s, v => .node [] (v.map fun (item : s.Value) => ([], s.write .empty item))
  | .object s, v => s.write .empty v

def Schema.entries : (s : Schema) → s.Value → List (Bytes × PTree)
  | .nil, _ => []
  | .cons name column rest, v => (name.text, column.tree v.1) :: rest.entries v.2

variable {name : ColumnName} {children : List (Bytes × PTree)} {data : Bytes}

theorem putIn_fresh {name value : Bytes} (h : name ∉ children.map Prod.fst) :
    putIn name value children = children ++ [(name, .leaf value)] := by
  induction children with
  | nil => rfl
  | cons entry rest ih =>
    obtain ⟨key, child⟩ := entry
    rw [List.map_cons, List.mem_cons, not_or] at h
    have hkey : ¬ key = name := fun heq => h.1 heq.symm
    rw [putIn, if_neg hkey, ih h.2, List.cons_append]

theorem find_fresh {child : PTree} {rest : List (Bytes × PTree)}
    (h : name.text ∉ children.map Prod.fst) :
    (PTree.node data (children ++ (name.text, child) :: rest)).find name = some child := by
  have hnone : (children.find? fun entry => entry.1 == name.text) = none := by
    rw [List.find?_eq_none]
    intro entry hmem hkey
    exact h (List.mem_map.mpr ⟨entry, hmem, eq_of_beq hkey⟩)
  rw [PTree.find, PTree.children, List.find?_append, hnone, Option.none_or,
    List.find?_cons_of_pos (by simp), Option.map_some]

/-- A column of a new name adds its child at the end. -/
theorem Column.put_fresh (h : name.text ∉ children.map Prod.fst) (c : Column) (v : c.Value) :
    c.put name (.node data children) v =
      .node data (children ++ [(name.text, c.tree v)]) := by
  cases c with
  | integer T => exact congrArg (PTree.node data) (putIn_fresh h)
  | string => exact congrArg (PTree.node data) (putIn_fresh h)
  | bytes => exact congrArg (PTree.node data) (putIn_fresh h)
  | integers T => rfl
  | objects s => rfl
  | object s => rfl

/-- After the child of a column the names of the other columns are still not there. -/
theorem fresh_rest {names : List Bytes} (hname : name.text ∉ names)
    (hfresh : ∀ n ∈ name.text :: names, n ∉ children.map Prod.fst) (child : PTree) :
    ∀ n ∈ names, n ∉ (children ++ [(name.text, child)]).map Prod.fst := by
  intro n hn
  simp only [List.map_append, List.map_cons, List.map_nil, List.mem_append, List.mem_singleton]
  intro hmem
  cases hmem with
  | inl hold => exact hfresh n (List.mem_cons_of_mem _ hn) hold
  | inr hnew => exact hname (hnew ▸ hn)

/-- An object adds the children of its columns, in order. -/
theorem Schema.write_fresh : ∀ (s : Schema) (children : List (Bytes × PTree)) (v : s.Value),
    s.Distinct → (∀ n ∈ s.names, n ∉ children.map Prod.fst) →
    s.write (.node data children) v = .node data (children ++ s.entries v)
  | .nil, children, _, _, _ => by rw [Schema.write, Schema.entries, List.append_nil]
  | .cons name column rest, children, v, hdistinct, hfresh => by
    have hname := hfresh name.text List.mem_cons_self
    have hrest := fresh_rest hdistinct.1 hfresh (column.tree v.1)
    rw [Schema.write, Column.put_fresh hname, rest.write_fresh _ v.2 hdistinct.2.2 hrest,
      Schema.entries, List.append_assoc, List.singleton_append]

theorem Schema.write_empty {s : Schema} (h : s.Distinct) (v : s.Value) :
    s.write .empty v = .node [] ([] ++ s.entries v) :=
  s.write_fresh [] v h fun _ _ => List.not_mem_nil

end Tree
section Reading

theorem mapM_map_eq_ok_iff {ε α β : Type} (f : β → Except ε α) (g : α → β) (l : List α) :
    (l.map g).mapM f = .ok l ↔ ∀ x ∈ l, f (g x) = .ok x := by
  induction l with
  | nil => simp [pure, Except.pure]
  | cons x rest ih =>
    rw [List.map_cons, List.mapM_cons, List.forall_mem_cons, ← ih]
    cases f (g x) with
    | error e => simp [bind, Except.bind]
    | ok y =>
      cases (rest.map g).mapM f with
      | error e => simp [bind, Except.bind]
      | ok ys => simp [bind, Except.bind, pure, Except.pure]

theorem pair_eq_ok_iff {ε α β : Type} {x : Except ε α} {y : Except ε β} {a : α} {b : β} :
    (do let v ← x; let w ← y; return (v, w)) = .ok (a, b) ↔ x = .ok a ∧ y = .ok b := by
  cases x with
  | error e => simp [bind, Except.bind]
  | ok v =>
    cases y with
    | error e => simp [bind, Except.bind]
    | ok w => simp [bind, Except.bind, pure, Except.pure]

mutual

/-- One case for each kind of column; vectors of objects and nested objects recur. -/
theorem Column.parse_tree_iff : ∀ (c : Column), c.Distinct → ∀ v : c.Value,
    c.parse (c.tree v) = .ok v ↔ c.Fives v
  | .integer _, _, v => ⟨fun _ => trivial, fun _ => getInteger_toText v⟩
  | .string, _, _ => ⟨fun _ => trivial, fun _ => rfl⟩
  | .bytes, _, v => ⟨fun _ => trivial, fun _ => getBytes_putBytes v⟩
  | .integers T, _, v => by
    let items : List (Integer T) := v
    have hmap := mapM_map_eq_ok_iff (fun entry : Bytes × PTree => fromPtree T entry.2.data)
      (fun item : Integer T => ([], PTree.leaf (toText item.val))) items
    refine hmap.trans ?_
    simp only [PTree.leaf, PTree.data, fromPtree_toText_iff]
    exact ⟨fun h hwidth item hitem => h item hitem hwidth,
      fun h item hitem hwidth => h hwidth item hitem⟩
  | .objects s, hdistinct, v => by
    let items : List s.Value := v
    have hmap := mapM_map_eq_ok_iff (fun entry : Bytes × PTree => s.read entry.2 s.default)
      (fun item : s.Value => ([], s.write .empty item)) items
    have hitem : ∀ item : s.Value,
        s.read (s.write .empty item) s.default = .ok item ↔ s.Fives item := by
      intro item
      rw [Schema.write_empty hdistinct]
      exact s.read_entries_iff hdistinct [] [] item _ fun _ _ => List.not_mem_nil
    simp only [hitem] at hmap
    exact hmap
  | .object s, hdistinct, v => by
    have hwrite := Schema.write_empty (s := s) hdistinct v
    have hread := s.read_entries_iff hdistinct [] [] v s.default fun _ _ => List.not_mem_nil
    rw [← hwrite] at hread
    exact hread

/-- The children before those of the object are of other names. -/
theorem Schema.read_entries_iff : ∀ (s : Schema), s.Distinct →
    ∀ (data : Bytes) (children : List (Bytes × PTree)) (v old : s.Value),
    (∀ n ∈ s.names, n ∉ children.map Prod.fst) →
    (s.read (.node data (children ++ s.entries v)) old = .ok v ↔ s.Fives v)
  | .nil, _, _, _, _, _, _ => ⟨fun _ => trivial, fun _ => rfl⟩
  | .cons name column rest, hdistinct, data, children, v, old, hfresh => by
    have hname := hfresh name.text List.mem_cons_self
    have hrest := fresh_rest hdistinct.1 hfresh (column.tree v.1)
    have ihcolumn := column.parse_tree_iff hdistinct.2.1 v.1
    have ihrest := rest.read_entries_iff hdistinct.2.2 data _ v.2 old.2 hrest
    rw [List.append_assoc, List.singleton_append] at ihrest
    rw [Schema.read, Schema.entries, find_fresh hname, Schema.Fives, ← ihcolumn, ← ihrest]
    exact pair_eq_ok_iff

end

/-- A value comes back exactly when all elements of its vectors of integers of 8 bits are 53. -/
theorem round_trips_iff (s : Schema) (hdistinct : s.Distinct) (v : s.Value) :
    roundTrip s v = .ok v ↔ s.Fives v := by
  rw [roundTrip, Schema.write_empty hdistinct]
  exact s.read_entries_iff hdistinct [] [] v _ fun _ _ => List.not_mem_nil

mutual

theorem Column.fives_of_wide : ∀ (c : Column), c.Wide → ∀ v : c.Value, c.Fives v
  | .integer _, _, _ => trivial
  | .string, _, _ => trivial
  | .bytes, _, _ => trivial
  | .integers _, hwide, _ => fun hwidth => absurd hwidth hwide
  | .objects s, hwide, _ => fun item _ => s.fives_of_wide hwide item
  | .object s, hwide, v => s.fives_of_wide hwide v

theorem Schema.fives_of_wide : ∀ (s : Schema), s.Wide → ∀ v : s.Value, s.Fives v
  | .nil, _, _ => trivial
  | .cons _ column rest, hwide, v =>
    ⟨column.fives_of_wide hwide.1 v.1, rest.fives_of_wide hwide.2 v.2⟩

end

/-- Without such vectors every value comes back. -/
theorem round_trips_of_wide {s : Schema} (hdistinct : s.Distinct) (hwide : s.Wide) (v : s.Value) :
    roundTrip s v = .ok v := by
  have hread := s.read_entries_iff hdistinct [] [] v s.default fun _ _ => List.not_mem_nil
  rw [roundTrip, Schema.write_empty hdistinct]
  exact hread.mpr (s.fives_of_wide hwide v)

/-- A column `v` of type `std::vector<uint8_t>`. -/
def valuesSchema : Schema :=
  .cons ⟨[118], by decide, by decide⟩ (.integers ⟨false, .w8⟩) .nil

def oneValue (item : UInt8) : valuesSchema.Value :=
  ([⟨item.toNat, by
    have hlt := item.toNat_lt
    simp only [IntType.Holds, IntType.low, IntType.high]
    omega⟩], ())

/-- The byte 65 is written as "65" and read as the code of "6". -/
theorem byte_of_vector_changed : valuesSchema.Distinct ∧
    roundTrip valuesSchema (oneValue 65) = .ok (oneValue 54) ∧ oneValue 54 ≠ oneValue 65 := by
  refine ⟨⟨List.not_mem_nil, trivial, trivial⟩, rfl, ?_⟩
  intro heq
  have hlists := congrArg Prod.fst heq
  have hitems := (Integer.ext_iff.mp (List.cons.inj hlists).1 : (54 : ℤ) = 65)
  exact absurd hitems (by decide)

/-- A vector of such objects. -/
def partsSchema : Schema := .cons ⟨[112], by decide, by decide⟩ (.objects valuesSchema) .nil

theorem round_trips_iff_parts :
    roundTrip partsSchema ([oneValue 53, oneValue 7], ()) =
      .ok ([oneValue 53, oneValue 7], ()) ↔
    partsSchema.Fives ([oneValue 53, oneValue 7], ()) :=
  round_trips_iff partsSchema
    ⟨List.not_mem_nil, ⟨List.not_mem_nil, trivial, trivial⟩, trivial⟩ _

end Reading
end PrivacyComputing.NtJson
