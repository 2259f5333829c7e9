import PrivacyComputing.NtJson
import PrivacyComputing.RunsHistory

/-! The key pairs that the key manager keeps in a directory, one file each, under the first forty
digits of the public key. The JSON text of the files is that of a library. -/
namespace PrivacyComputing.KeyStore
open StreamText NtJson

/-- `keymgr_key_package_t`. -/
structure KeyPackage where
  pkey : Bytes
  sealedSkey : Bytes
  userId : Bytes
  timestamp : Integer ⟨false, .w64⟩

/-- What the calls throw. -/
inductive Failure
  | writeFailed | readFailed | fileNotExist | keyPairNotFound
  deriving DecidableEq, Repr

def publicKeyColumn : ColumnName :=
  ⟨[112, 117, 98, 108, 105, 99, 95, 107, 101, 121], by decide, by decide⟩

def privateKeyColumn : ColumnName :=
  ⟨[112, 114, 105, 118, 97, 116, 101, 95, 107, 101, 121], by decide, by decide⟩

def userIdColumn : ColumnName :=
  ⟨[117, 115, 101, 114, 95, 105, 100], by decide, by decide⟩

def timestampColumn : ColumnName :=
  ⟨[116, 105, 109, 101, 115, 116, 97, 109, 112], by decide, by decide⟩

/-- The tree that `write_key_pair_to_file` writes. -/
def writeKeyPair (key : KeyPackage) : PTree :=
  (((PTree.empty.put publicKeyColumn (putBytes key.pkey)).put privateKeyColumn
    (putBytes key.sealedSkey)).put userIdColumn key.userId).put timestampColumn
    (toText key.timestamp.val)

/-- `get<hex_bytes>` and then `as<bytes>`: the digits are looked at after the stream. -/
def getHex (text : Bytes) : Option Bytes :=
  let word := extractWord text
  if word.failbit && !word.eofbit then none else HexCodec.asRaw word.text

/-- `read_key_pair_from_file` on the tree of the file; every failure becomes the same exception. -/
def readKeyPair (pt : PTree) : Except Failure KeyPackage :=
  let read : Option KeyPackage := do
    let pkey ← getHex (← pt.find publicKeyColumn).data
    let skey ← getHex (← pt.find privateKeyColumn).data
    let uid := (← pt.find userIdColumn).data
    let ts ← (getInteger ⟨false, .w64⟩ (← pt.find timestampColumn).data).toOption
    return ⟨pkey, skey, uid, ts⟩
  match read with
  | none => .error .readFailed
  | some key => .ok key

/-- `write_json` and `read_json`; the latter throws on text that it refuses. -/
structure JsonParser where
  writeJson : PTree → Bytes
  readJson : Bytes → Option PTree

/-- The text of a key pair is read back as the tree that was written. -/
def JsonParser.ReadsBack (J : JsonParser) (key : KeyPackage) : Prop :=
  J.readJson (J.writeJson (writeKeyPair key)) = some (writeKeyPair key)

/-- What a name of the directory stands for. -/
inductive Item
  | keyFile (text : Bytes)
  | directory

/-- The key directory: what its names stand for. -/
abbrev Directory := Bytes → Option Item

/-- A name that a path can end in. -/
structure FileName where
  text : Bytes
  nonempty : text ≠ []
  noSlash : (47 : UInt8) ∉ text

def backup : Bytes := [98, 97, 99, 107, 117, 112]

/-- The directory as `main` makes it. -/
def newDirectory : Directory := Function.update (fun _ => none) backup (some .directory)

def PKEY_FILE_NAME_LENGTH : ℕ := 40

def fileName (pkey : Bytes) : Bytes := (putBytes pkey).take PKEY_FILE_NAME_LENGTH

/-- The characters that a user id cannot have. -/
def blacklists : Bytes :=
  [33, 35, 36, 37, 94, 38, 42, 40, 41, 45, 43, 61, 92, 124, 96, 123, 125, 91, 93, 58,
    59, 34, 60, 62, 39, 63, 47]

def isUserIdValid (userId : Bytes) : Bool := blacklists.all fun c => !userId.contains c

section Program
variable (J : JsonParser)

/-- `write_key_pair_to_file`: a directory of that name is not written over. -/
def writeKeyPairToFile (dir : Directory) (name : Bytes) (key : KeyPackage) :
    Except Failure Directory :=
  match dir name with
  | some .directory => .error .writeFailed
  | _ => .ok (Function.update dir name (some (.keyFile (J.writeJson (writeKeyPair key)))))

def readKeyPairFromFile (dir : Directory) (name : Bytes) : Except Failure KeyPackage :=
  match dir name with
  | some (.keyFile text) =>
    match J.readJson text with
    | none => .error .readFailed
    | some pt => readKeyPair pt
  | _ => .error .readFailed

/-- `create_key` with the key pair of the enclave; a bad user id ends it without a file. -/
def createKey (dir : Directory) (key : KeyPackage) : Except Failure Directory :=
  if isUserIdValid key.userId then writeKeyPairToFile J dir (fileName key.pkey) key else .ok dir

def removeKey (dir : Directory) (name : FileName) : Except Failure Directory :=
  match dir name.text with
  | some (.keyFile _) => .ok (Function.update dir name.text none)
  | _ => .error .fileNotExist

/-- The loop of `ocall_load_key_pair` over the names in the order of the directory. -/
def findKeyPair (dir : Directory) (pkey : Bytes) : List Bytes → Except Failure (Option Bytes)
  | [] => .ok none
  | name :: rest =>
    if fileName pkey = name then do
      let key ← readKeyPairFromFile J dir name
      return some key.sealedSkey
    else findKeyPair dir pkey rest

/-- The sealed private key for a public key. -/
def ocallLoadKeyPair (dir : Directory) (listing : List Bytes) (pkey : Bytes) :
    Except Failure Bytes := do
  match ← findKeyPair J dir pkey listing with
  | none => .error .keyPairNotFound
  | some sealedSkey => .ok sealedSkey

/-- The key pairs that `list_keys` prints, with their names. -/
def listKeys (dir : Directory) (listing : List Bytes) :
    Except Failure (List (Bytes × KeyPackage)) :=
  (listing.filter (· != backup)).mapM fun name => do
    let key ← readKeyPairFromFile J dir name
    return (name, key)

end Program

section Files

theorem putBytes_of_encodePairs {b hex : Bytes} (h : HexCodec.encodePairs b = some hex) :
    putBytes b = hex := by
  rw [putBytes, HexCodec.asHex_eq, h, Option.getD_some]

theorem length_putBytes (b : Bytes) : (putBytes b).length = b.length * 2 := by
  obtain ⟨hex, hencode, -⟩ := HexCodec.encodePairs_decode b
  rw [putBytes_of_encodePairs hencode, HexCodec.encodePairs_length hencode]

theorem putBytes_append (b b' : Bytes) : putBytes (b ++ b') = putBytes b ++ putBytes b' := by
  obtain ⟨hex', hencode', -⟩ := HexCodec.encodePairs_decode b'
  suffices hencode : ∃ hex, HexCodec.encodePairs b = some hex ∧
      HexCodec.encodePairs (b ++ b') = some (hex ++ hex') by
    obtain ⟨hex, hb, happend⟩ := hencode
    rw [putBytes_of_encodePairs hb, putBytes_of_encodePairs hencode',
      putBytes_of_encodePairs happend]
  induction b with
  | nil => exact ⟨[], rfl, hencode'⟩
  | cons num rest ih =>
    obtain ⟨hex, hrest, happend⟩ := ih
    obtain ⟨high, low, hdigits, -⟩ := HexCodec.toHex_digits num
    refine ⟨high :: low :: hex, ?_, ?_⟩
    · simp [HexCodec.encodePairs, hdigits, hrest]
    · simp [HexCodec.encodePairs, hdigits, happend]

theorem putBytes_injective {b b' : Bytes} (h : putBytes b = putBytes b') : b = b' := by
  have hread := getBytes_putBytes b
  rw [h, getBytes_putBytes b', Except.ok.injEq] at hread
  exact hread.symm

/-- The name has the digits of the first twenty bytes. -/
theorem fileName_eq {pkey : Bytes} (h : 20 ≤ pkey.length) :
    fileName pkey = putBytes (pkey.take 20) := by
  have hsplit := putBytes_append (pkey.take 20) (pkey.drop 20)
  rw [List.take_append_drop] at hsplit
  have hlength : (putBytes (pkey.take 20)).length = PKEY_FILE_NAME_LENGTH := by
    rw [length_putBytes, List.length_take, PKEY_FILE_NAME_LENGTH]
    omega
  rw [fileName, hsplit, ← hlength, List.take_left]

theorem fileName_eq_iff {pkey pkey' : Bytes} (h : 20 ≤ pkey.length) (h' : 20 ≤ pkey'.length) :
    fileName pkey = fileName pkey' ↔ pkey.take 20 = pkey'.take 20 := by
  rw [fileName_eq h, fileName_eq h']
  constructor
  · exact putBytes_injective
  · intro heq
    rw [heq]

theorem fileName_ne_backup {pkey : Bytes} (h : 20 ≤ pkey.length) : fileName pkey ≠ backup := by
  intro heq
  have hlength := congrArg List.length heq
  rw [fileName_eq h, length_putBytes, List.length_take] at hlength
  have hbackup : backup.length = 6 := rfl
  omega

theorem getHex_putBytes (b : Bytes) : getHex (putBytes b) = some b := by
  obtain ⟨hex, hhex, hraw, hdigits⟩ := HexCodec.asHex_digits b
  rw [putBytes, hhex, Option.getD_some, getHex]
  by_cases hempty : hex = []
  · subst hempty
    simp [extractWord_nil, hraw]
  · have hword := extractWord_of_no_space hempty fun c hc => not_space_of_hexDigit (hdigits c hc)
    simp [hword, hraw]

/-- What is written to a file is read back. -/
theorem readKeyPair_writeKeyPair (key : KeyPackage) : readKeyPair (writeKeyPair key) = .ok key := by
  have hpublic : (writeKeyPair key).find publicKeyColumn = some (.leaf (putBytes key.pkey)) := rfl
  have hprivate : (writeKeyPair key).find privateKeyColumn =
      some (.leaf (putBytes key.sealedSkey)) := rfl
  have huser : (writeKeyPair key).find userIdColumn = some (.leaf key.userId) := rfl
  have htime : (writeKeyPair key).find timestampColumn =
      some (.leaf (toText key.timestamp.val)) := rfl
  simp [readKeyPair, hpublic, hprivate, huser, htime, PTree.leaf, PTree.data, getHex_putBytes,
    getInteger_toText, Except.toOption]

end Files
section Runs
variable (J : JsonParser)

/-- One start of the program. The public keys of the enclave are longer than a name shows. -/
inductive Op
  | create (key : KeyPackage) (long : 20 ≤ key.pkey.length)
  | remove (name : FileName)

def Op.apply (dir : Directory) : Op → Except Failure Directory
  | .create key _ => createKey J dir key
  | .remove name => removeKey dir name

/-- An exception ends the program and leaves the directory as it was. -/
def step (dir : Directory) (op : Op) : Directory :=
  match op.apply J dir with
  | .ok dir' => dir'
  | .error _ => dir

def run (ops : List Op) : Directory := ops.foldl (step J) newDirectory

/-- What an operation does to the key pair under a public key: to that of all public keys with the
same first twenty bytes. -/
def Op.onKey (op : Op) (pkey : Bytes) : Option (Option KeyPackage) :=
  match op with
  | .create key _ =>
    if isUserIdValid key.userId ∧ key.pkey.take 20 = pkey.take 20 then some (some key) else none
  | .remove name => if name.text = putBytes (pkey.take 20) then some none else none

/-- The key pair that was created last and not removed since. -/
def newest (ops : List Op) (pkey : Bytes) : Option KeyPackage :=
  (LastWrite.last Op.onKey ops pkey).join

/-- The same for the key pair under a name. -/
def Op.onName (op : Op) (name : Bytes) : Option (Option KeyPackage) :=
  match op with
  | .create key _ =>
    if isUserIdValid key.userId ∧ fileName key.pkey = name then some (some key) else none
  | .remove removed => if removed.text = name then some none else none

/-- The directory with the files of key pairs. -/
def keyDir (keys : Bytes → Option KeyPackage) : Directory := fun name =>
  if name = backup then some .directory
  else (keys name).map fun key => .keyFile (J.writeJson (writeKeyPair key))

variable {J} {keys : Bytes → Option KeyPackage}

theorem keyDir_backup : keyDir J keys backup = some .directory := if_pos rfl

theorem keyDir_of_ne {name : Bytes} (h : name ≠ backup) :
    keyDir J keys name = (keys name).map fun key => .keyFile (J.writeJson (writeKeyPair key)) :=
  if_neg h

theorem create_keyDir (key : KeyPackage) (hlong : 20 ≤ key.pkey.length) :
    step J (keyDir J keys) (.create key hlong) =
      keyDir J (LastWrite.apply Op.onName keys (.create key hlong)) := by
  by_cases hvalid : isUserIdValid key.userId = true
  · have hne := fileName_ne_backup hlong
    have hwrite : writeKeyPairToFile J (keyDir J keys) (fileName key.pkey) key =
        .ok (Function.update (keyDir J keys) (fileName key.pkey)
          (some (.keyFile (J.writeJson (writeKeyPair key))))) := by
      rw [writeKeyPairToFile, keyDir_of_ne hne]
      cases keys (fileName key.pkey) with
      | none => rfl
      | some old => rfl
    funext name
    simp only [step, Op.apply, createKey, if_pos hvalid, hwrite]
    by_cases hname : name = fileName key.pkey
    · rw [hname, Function.update_self, keyDir_of_ne hne]
      simp [LastWrite.apply, Op.onName, hvalid]
    · rw [Function.update_of_ne hname]
      have hother : ¬ fileName key.pkey = name := fun heq => hname heq.symm
      simp [keyDir, LastWrite.apply, Op.onName, hother]
  · have hsame : LastWrite.apply Op.onName keys (.create key hlong) = keys := by
      funext name
      simp [LastWrite.apply, Op.onName, hvalid]
    rw [hsame, step, Op.apply, createKey, if_neg hvalid]

theorem remove_keyDir (removed : FileName) :
    step J (keyDir J keys) (.remove removed) =
      keyDir J (LastWrite.apply Op.onName keys (.remove removed)) := by
  have hothers : ∀ name, name ≠ removed.text →
      LastWrite.apply Op.onName keys (.remove removed) name = keys name := by
    intro name hname
    have hother : ¬ removed.text = name := fun heq => hname heq.symm
    simp [LastWrite.apply, Op.onName, hother]
  have hself : LastWrite.apply Op.onName keys (.remove removed) removed.text = none := by
    simp [LastWrite.apply, Op.onName]
  funext name
  rw [step, Op.apply, removeKey]
  by_cases hbackup : removed.text = backup
  · simp only [hbackup, keyDir_backup]
    by_cases hname : name = backup
    · rw [hname, keyDir_backup, keyDir_backup]
    · rw [keyDir_of_ne hname, keyDir_of_ne hname, hothers name (by rw [hbackup]; exact hname)]
  · rw [keyDir_of_ne hbackup]
    cases hkey : keys removed.text with
    | none =>
      have hsame : LastWrite.apply Op.onName keys (.remove removed) = keys := by
        funext name'
        by_cases hname : name' = removed.text
        · rw [hname, hself, hkey]
        · exact hothers name' hname
      rw [hsame]
      rfl
    | some key =>
      simp only [Option.map_some]
      by_cases hname : name = removed.text
      · rw [hname, Function.update_self, keyDir_of_ne hbackup, hself]
        rfl
      · rw [Function.update_of_ne hname, keyDir, keyDir, hothers name hname]

/-- One step of the directory is one step of the key pairs that it has. -/
theorem step_keyDir (op : Op) :
    step J (keyDir J keys) op = keyDir J (LastWrite.apply Op.onName keys op) := by
  cases op with
  | create key hlong => exact create_keyDir key hlong
  | remove removed => exact remove_keyDir removed

theorem foldl_keyDir (ops : List Op) : ops.foldl (step J) (keyDir J keys) =
    keyDir J (ops.foldl (LastWrite.apply Op.onName) keys) := by
  induction ops generalizing keys with
  | nil => rfl
  | cons op ops ih => rw [List.foldl_cons, List.foldl_cons, step_keyDir, ih]

theorem newDirectory_eq (J : JsonParser) : newDirectory = keyDir J fun _ => none := by
  funext name
  by_cases hname : name = backup
  · rw [hname, keyDir_backup, newDirectory, Function.update_self]
  · rw [keyDir_of_ne hname, newDirectory, Function.update_of_ne hname]
    rfl

/-- What a name of the directory stands for after a run. -/
theorem run_eq (J : JsonParser) (ops : List Op) :
    run J ops = keyDir J fun name => (LastWrite.last Op.onName ops name).join := by
  rw [run, newDirectory_eq J, foldl_keyDir]
  congr 1
  funext name
  rw [LastWrite.foldl_apply]
  cases LastWrite.last Op.onName ops name with
  | none => rfl
  | some value => rfl

theorem onName_fileName (op : Op) {pkey : Bytes} (h : 20 ≤ pkey.length) :
    op.onName (fileName pkey) = op.onKey pkey := by
  cases op with
  | create key hlong => simp only [Op.onName, Op.onKey, fileName_eq_iff hlong h]
  | remove removed => simp only [Op.onName, Op.onKey, fileName_eq h]

theorem last_fileName (ops : List Op) {pkey : Bytes} (h : 20 ≤ pkey.length) :
    LastWrite.last Op.onName ops (fileName pkey) = LastWrite.last Op.onKey ops pkey := by
  have heffect : (fun op : Op => op.onName (fileName pkey)) = fun op => op.onKey pkey := by
    funext op
    exact onName_fileName op h
  rw [LastWrite.last, LastWrite.last, heffect]

theorem run_fileName (J : JsonParser) (ops : List Op) {pkey : Bytes} (h : 20 ≤ pkey.length) :
    run J ops (fileName pkey) =
      (newest ops pkey).map fun key => .keyFile (J.writeJson (writeKeyPair key)) := by
  rw [run_eq, keyDir_of_ne (fileName_ne_backup h), last_fileName ops h, newest]

end Runs
section Results
variable {J : JsonParser}

theorem readKeyPairFromFile_of_readsBack {dir : Directory} {name : Bytes} {key : KeyPackage}
    (h : dir name = some (.keyFile (J.writeJson (writeKeyPair key)))) (hjson : J.ReadsBack key) :
    readKeyPairFromFile J dir name = .ok key := by
  have hread : J.readJson (J.writeJson (writeKeyPair key)) = some (writeKeyPair key) := hjson
  simp only [readKeyPairFromFile, h, hread]
  exact readKeyPair_writeKeyPair key

theorem findKeyPair_of_mem (dir : Directory) {pkey : Bytes} {listing : List Bytes}
    (h : fileName pkey ∈ listing) :
    findKeyPair J dir pkey listing = do
      let key ← readKeyPairFromFile J dir (fileName pkey)
      return some key.sealedSkey := by
  induction listing with
  | nil => cases h
  | cons name rest ih =>
    by_cases hname : fileName pkey = name
    · rw [findKeyPair, if_pos hname, hname]
    · have hrest : fileName pkey ∈ rest := by
        cases List.mem_cons.mp h with
        | inl hhead => exact absurd hhead hname
        | inr htail => exact htail
      rw [findKeyPair, if_neg hname, ih hrest]

theorem findKeyPair_of_not_mem (dir : Directory) {pkey : Bytes} {listing : List Bytes}
    (h : fileName pkey ∉ listing) : findKeyPair J dir pkey listing = .ok none := by
  induction listing with
  | nil => rfl
  | cons name rest ih =>
    rw [List.mem_cons, not_or] at h
    rw [findKeyPair, if_neg h.1, ih h.2]

/-- After any run, whatever the order of the names, a public key loads the sealed key that was
created last, and not removed since, for a public key with the same first twenty bytes, if the text
of this key pair can be read. -/
theorem ocallLoadKeyPair_newest (ops : List Op) {listing : List Bytes}
    (hlisting : ∀ name, name ∈ listing ↔ (run J ops name).isSome = true) {pkey : Bytes}
    (hlong : 20 ≤ pkey.length) (hjson : ∀ key, newest ops pkey = some key → J.ReadsBack key) :
    ocallLoadKeyPair J (run J ops) listing pkey =
      match newest ops pkey with
      | none => .error .keyPairNotFound
      | some key => .ok key.sealedSkey := by
  have hname := run_fileName J ops hlong
  have hmem := hlisting (fileName pkey)
  cases hnewest : newest ops pkey with
  | none =>
    rw [hnewest, Option.map_none] at hname
    rw [hname] at hmem
    rw [ocallLoadKeyPair, findKeyPair_of_not_mem _ (by simpa using hmem)]
    rfl
  | some key =>
    rw [hnewest, Option.map_some] at hname
    rw [hname] at hmem
    have hread := readKeyPairFromFile_of_readsBack hname (hjson key hnewest)
    rw [ocallLoadKeyPair, findKeyPair_of_mem _ (hmem.mpr rfl), hread]
    rfl

section Samples

/-- The strings of a flat JSON object and the punctuation between their quotes. -/
def pieces (before : Bytes) : List (Bytes × PTree) → List Bytes
  | [] => [[10, 125, 10]]
  | (name, child) :: children =>
    before :: name :: [58, 32] :: child.data :: pieces [44, 10, 32, 32, 32, 32] children

def readPieces (before : Bytes) : List Bytes → Option (List (Bytes × PTree))
  | [close] => if close = [10, 125, 10] then some [] else none
  | start :: name :: colon :: value :: rest =>
    if start = before ∧ colon = [58, 32] then do
      let children ← readPieces [44, 10, 32, 32, 32, 32] rest
      return (name, .leaf value) :: children
    else none
  | _ => none

/-- JSON of flat objects, for strings without escapes. -/
def flatJson : JsonParser where
  writeJson pt := [34].intercalate (pieces [123, 10, 32, 32, 32, 32] pt.children)
  readJson text :=
    (readPieces [123, 10, 32, 32, 32, 32] (text.splitOn 34)).map (PTree.node [])

theorem readPieces_pieces (before : Bytes) (members : List (Bytes × Bytes)) :
    readPieces before (pieces before (members.map fun m => (m.1, .leaf m.2))) =
      some (members.map fun m => (m.1, .leaf m.2)) := by
  induction members generalizing before with
  | nil => rfl
  | cons m members ih =>
    have hrest := ih [44, 10, 32, 32, 32, 32]
    simp only [List.map_cons, pieces, readPieces, and_self, if_true, hrest]
    rfl

theorem quote_not_mem_pieces (before : Bytes) (members : List (Bytes × Bytes))
    (hbefore : 34 ∉ before) (h : ∀ m ∈ members, 34 ∉ m.1 ∧ 34 ∉ m.2) :
    ∀ piece ∈ pieces before (members.map fun m => (m.1, .leaf m.2)), 34 ∉ piece := by
  induction members generalizing before with
  | nil => simp [pieces]
  | cons m members ih =>
    obtain ⟨hname, hvalue⟩ := h m List.mem_cons_self
    have hrest := ih [44, 10, 32, 32, 32, 32] (by decide) fun m' hm' =>
      h m' (List.mem_cons_of_mem _ hm')
    simp only [List.map_cons, pieces, PTree.leaf, PTree.data, List.forall_mem_cons]
    exact ⟨hbefore, hname, by decide, hvalue, hrest⟩

/-- The members of a key pair have no quotes, unless its user id has. -/
theorem flatJson_readsBack {key : KeyPackage} (h : 34 ∉ key.userId) : flatJson.ReadsBack key := by
  have hhex : ∀ b : Bytes, 34 ∉ putBytes b := by
    intro b hmem
    obtain ⟨hex, hhex, -, hdigits⟩ := HexCodec.asHex_digits b
    rw [putBytes, hhex, Option.getD_some] at hmem
    have hquote : ¬ HexCodec.HexDigit 34 := by
      unfold HexCodec.HexDigit
      decide
    exact hquote (hdigits 34 hmem)
  have htime : 34 ∉ toText key.timestamp.val := by
    have hdigits : ∀ n, 34 ∉ natText n := fun n hmem => absurd (natText_digit hmem) (by decide)
    unfold toText
    split_ifs
    · simp [hdigits]
    · exact hdigits _
  have htree : writeKeyPair key = .node []
      ([(publicKeyColumn.text, putBytes key.pkey), (privateKeyColumn.text, putBytes key.sealedSkey),
        (userIdColumn.text, key.userId), (timestampColumn.text, toText key.timestamp.val)].map
          fun m => (m.1, .leaf m.2)) := rfl
  have hquotes := quote_not_mem_pieces [123, 10, 32, 32, 32, 32]
    [(publicKeyColumn.text, putBytes key.pkey), (privateKeyColumn.text, putBytes key.sealedSkey),
      (userIdColumn.text, key.userId), (timestampColumn.text, toText key.timestamp.val)]
    (by decide) (by
        simp only [List.forall_mem_cons]
        exact ⟨⟨by decide, hhex _⟩, ⟨by decide, hhex _⟩, ⟨by decide, h⟩, ⟨by decide, htime⟩,
          fun _ hmem => absurd hmem List.not_mem_nil⟩)
  unfold JsonParser.ReadsBack
  rw [htree]
  simp only [flatJson, PTree.children]
  rw [List.splitOn_intercalate 34 hquotes (by simp [pieces]), readPieces_pieces]
  rfl

/-- A key pair of the user `a`; the public keys differ in the last byte. -/
def sampleKey (last : UInt8) : KeyPackage :=
  ⟨List.replicate 63 0 ++ [last], [last], [97], Integer.zero _⟩

/-- The second key pair takes the file of the first one. -/
def samples : List Op := [.create (sampleKey 1) (by decide), .create (sampleKey 2) (by decide)]

theorem mem_sampleNames (J : JsonParser) (name : Bytes) :
    name ∈ [fileName (sampleKey 2).pkey, backup] ↔ (run J samples name).isSome = true := by
  have hlong : ∀ last, 20 ≤ (sampleKey last).pkey.length := by
    intro last
    simp [sampleKey]
  have hsame : fileName (sampleKey 1).pkey = fileName (sampleKey 2).pkey :=
    (fileName_eq_iff (hlong 1) (hlong 2)).mpr (by decide)
  have hvalid : ∀ last, isUserIdValid (sampleKey last).userId = true := by
    have ha : isUserIdValid [97] = true := by decide
    exact fun _ => ha
  rw [run_eq]
  by_cases hbackup : name = backup
  · simp [hbackup, keyDir_backup]
  · rw [keyDir_of_ne hbackup]
    by_cases hname : fileName (sampleKey 2).pkey = name
    · simp [samples, LastWrite.last, Op.onName, hname, hvalid]
    · have hother : ¬ name = fileName (sampleKey 2).pkey := fun heq => hname heq.symm
      simp [samples, LastWrite.last, Op.onName, hname, hsame, hbackup, hother]

theorem samples_readsBack {pkey : Bytes} {key : KeyPackage} (h : newest samples pkey = some key) :
    flatJson.ReadsBack key := by
  obtain ⟨op, hop, heffect⟩ := LastWrite.exists_of_last (Option.join_eq_some_iff.mp h)
  apply flatJson_readsBack
  have hsample : ∃ last, key = sampleKey last := by
    simp only [samples, List.mem_cons, List.not_mem_nil, or_false] at hop
    rcases hop with rfl | rfl <;>
    · simp only [Op.onKey] at heffect
      split_ifs at heffect
      exact ⟨_, (Option.some.inj (Option.some.inj heffect)).symm⟩
  obtain ⟨last, rfl⟩ := hsample
  have huser : (34 : UInt8) ∉ ([97] : Bytes) := by decide
  exact huser

theorem ocallLoadKeyPair_newest_samples :
    ocallLoadKeyPair flatJson (run flatJson samples) [fileName (sampleKey 2).pkey, backup]
        (sampleKey 1).pkey =
      match newest samples (sampleKey 1).pkey with
      | none => .error .keyPairNotFound
      | some key => .ok key.sealedSkey :=
  ocallLoadKeyPair_newest samples (mem_sampleNames flatJson) (by decide)
    fun _ h => samples_readsBack h

end Samples

/-- The key pair of a name was created under this name by a user without forbidden characters. -/
theorem created_of_onName {ops : List Op} {name : Bytes} {key : KeyPackage}
    (h : (LastWrite.last Op.onName ops name).join = some key) :
    20 ≤ key.pkey.length ∧ fileName key.pkey = name ∧ isUserIdValid key.userId = true := by
  obtain ⟨op, -, hop⟩ := LastWrite.exists_of_last (Option.join_eq_some_iff.mp h)
  cases op with
  | create created hlong =>
    simp only [Op.onName] at hop
    by_cases hwrites : isUserIdValid created.userId = true ∧ fileName created.pkey = name
    · rw [if_pos hwrites, Option.some.injEq, Option.some.injEq] at hop
      rw [← hop]
      exact ⟨hlong, hwrites.2, hwrites.1⟩
    · rw [if_neg hwrites] at hop
      cases hop
  | remove removed =>
    simp only [Op.onName] at hop
    split at hop <;> simp at hop

theorem not_mem_of_isUserIdValid {userId : Bytes} (h : isUserIdValid userId = true) {c : UInt8}
    (hc : c ∈ blacklists) : c ∉ userId := by
  have hall := List.all_eq_true.mp h c hc
  simpa using hall

/-- The file of every other name than `backup` is read without a failure. -/
theorem readKeyPairFromFile_of_isSome {ops : List Op}
    (hjson : ∀ key, newest ops key.pkey = some key → J.ReadsBack key) {name : Bytes}
    (hname : name ≠ backup) (h : (run J ops name).isSome = true) :
    ∃ key, readKeyPairFromFile J (run J ops) name = .ok key ∧
      newest ops key.pkey = some key ∧ 20 ≤ key.pkey.length ∧ fileName key.pkey = name ∧
      isUserIdValid key.userId = true := by
  have hfile := congrFun (run_eq J ops) name
  rw [keyDir_of_ne hname] at hfile
  rw [hfile] at h
  cases hlast : (LastWrite.last Op.onName ops name).join with
  | none =>
    rw [hlast] at h
    cases h
  | some key =>
    rw [hlast, Option.map_some] at hfile
    obtain ⟨hlong, hkey, hvalid⟩ := created_of_onName hlast
    have hnewest : newest ops key.pkey = some key := by
      rw [newest, ← last_fileName ops hlong, hkey, hlast]
    exact ⟨key, readKeyPairFromFile_of_readsBack hfile (hjson key hnewest), hnewest, hlong, hkey,
      hvalid⟩

/-- Reading the files of a list of names, none of which fails. -/
theorem mapM_readKeyPair (dir : Directory) (names : List Bytes)
    (h : ∀ name ∈ names, ∃ key, readKeyPairFromFile J dir name = .ok key) :
    ∃ keys : List (Bytes × KeyPackage),
      (names.mapM fun name => do
        let key ← readKeyPairFromFile J dir name
        return (name, key)) = .ok keys ∧ keys.map Prod.fst = names ∧
      ∀ entry ∈ keys, readKeyPairFromFile J dir entry.1 = .ok entry.2 := by
  induction names with
  | nil => exact ⟨[], rfl, rfl, fun _ hmem => absurd hmem List.not_mem_nil⟩
  | cons name rest ih =>
    obtain ⟨key, hkey⟩ := h name List.mem_cons_self
    obtain ⟨keys, hmap, hnames, hread⟩ := ih fun n hn => h n (List.mem_cons_of_mem _ hn)
    refine ⟨(name, key) :: keys, ?_, ?_, ?_⟩
    · rw [List.mapM_cons, hkey, hmap]
      rfl
    · rw [List.map_cons, hnames]
    · intro entry hentry
      cases List.mem_cons.mp hentry with
      | inl hhead => rw [hhead, hkey]
      | inr htail => exact hread entry htail

/-- After any run in which the texts of the key pairs that are left can be read, the list has every
name but `backup` once: exactly the key pairs that can be loaded, each under the name of its public
key and of a user without forbidden characters. -/
theorem listKeys_newest (ops : List Op) {listing : List Bytes}
    (hlisting : ∀ name, name ∈ listing ↔ (run J ops name).isSome = true)
    (hjson : ∀ key, newest ops key.pkey = some key → J.ReadsBack key) :
    ∃ keys, listKeys J (run J ops) listing = .ok keys ∧
      keys.map Prod.fst = listing.filter (· != backup) ∧
      (∀ entry ∈ keys, entry.1 = fileName entry.2.pkey ∧
        newest ops entry.2.pkey = some entry.2 ∧ ∀ c ∈ blacklists, c ∉ entry.2.userId) ∧
      ∀ pkey key, 20 ≤ pkey.length → newest ops pkey = some key → (fileName pkey, key) ∈ keys := by
  have hnames : ∀ name ∈ listing.filter (· != backup),
      name ≠ backup ∧ (run J ops name).isSome = true := by
    intro name hname
    rw [List.mem_filter, bne_iff_ne] at hname
    exact ⟨hname.2, (hlisting name).mp hname.1⟩
  obtain ⟨keys, hmap, hfst, hread⟩ := mapM_readKeyPair (run J ops) (listing.filter (· != backup))
    fun name hname =>
      (readKeyPairFromFile_of_isSome hjson (hnames name hname).1 (hnames name hname).2).imp
        fun _ hkey => hkey.1
  have hentries : ∀ entry ∈ keys, newest ops entry.2.pkey = some entry.2 ∧
      fileName entry.2.pkey = entry.1 ∧ isUserIdValid entry.2.userId = true := by
    intro entry hentry
    have hmem : entry.1 ∈ listing.filter (· != backup) := by
      rw [← hfst]
      exact List.mem_map_of_mem hentry
    obtain ⟨hne, hsome⟩ := hnames entry.1 hmem
    obtain ⟨key, hkey, hnewest, -, hname, hvalid⟩ := readKeyPairFromFile_of_isSome hjson hne hsome
    rw [hread entry hentry, Except.ok.injEq] at hkey
    rw [hkey]
    exact ⟨hnewest, hname, hvalid⟩
  refine ⟨keys, hmap, hfst, ?_, ?_⟩
  · intro entry hentry
    obtain ⟨hnewest, hname, hvalid⟩ := hentries entry hentry
    exact ⟨hname.symm, hnewest, fun c hc => not_mem_of_isUserIdValid hvalid hc⟩
  · intro pkey key hlong hnewest
    have hrun := run_fileName J ops hlong
    rw [hnewest, Option.map_some] at hrun
    have hlisted : fileName pkey ∈ listing.filter (· != backup) := by
      rw [List.mem_filter, bne_iff_ne]
      exact ⟨(hlisting _).mpr (by rw [hrun]; rfl), fileName_ne_backup hlong⟩
    obtain ⟨key', hread', hnewest', hlong', hname', -⟩ :=
      readKeyPairFromFile_of_isSome hjson (hnames _ hlisted).1 (hnames _ hlisted).2
    have hsame : newest ops key'.pkey = newest ops pkey := by
      rw [newest, newest, ← last_fileName ops hlong', ← last_fileName ops hlong, hname']
    rw [hnewest', hnewest, Option.some.injEq] at hsame
    rw [← hfst] at hlisted
    obtain ⟨entry, hentry, hname⟩ := List.mem_map.mp hlisted
    have hkey := hread entry hentry
    rw [hname, hread', Except.ok.injEq] at hkey
    rw [← hname, ← hsame, hkey]
    exact hentry

theorem listKeys_newest_samples :
    ∃ keys, listKeys flatJson (run flatJson samples) [fileName (sampleKey 2).pkey, backup] =
        .ok keys ∧
      keys.map Prod.fst = [fileName (sampleKey 2).pkey, backup].filter (· != backup) ∧
      (∀ entry ∈ keys, entry.1 = fileName entry.2.pkey ∧
        newest samples entry.2.pkey = some entry.2 ∧ ∀ c ∈ blacklists, c ∉ entry.2.userId) ∧
      ∀ pkey key, 20 ≤ pkey.length → newest samples pkey = some key →
        (fileName pkey, key) ∈ keys :=
  listKeys_newest samples (mem_sampleNames flatJson) fun _ h => samples_readsBack h

end Results

end PrivacyComputing.KeyStore
