import Mathlib.Data.UInt
import PrivacyComputing.BlockStream
import PrivacyComputing.CryptoPack

/-! The hash of the `stdeth` pack, `keccak.c`: the permutation in place, and the sponge that takes
its input by bytes into a saved word and by whole words into the state. -/
namespace PrivacyComputing.Keccak
open BlockStream

def rotl64 (x y : UInt64) : UInt64 := x <<< y ||| x >>> (64 - y)

def keccakfRndc : List UInt64 :=
  [0x0000000000000001, 0x0000000000008082, 0x800000000000808a, 0x8000000080008000,
    0x000000000000808b, 0x0000000080000001, 0x8000000080008081, 0x8000000000008009,
    0x000000000000008a, 0x0000000000000088, 0x0000000080008009, 0x000000008000000a,
    0x000000008000808b, 0x800000000000008b, 0x8000000000008089, 0x8000000000008003,
    0x8000000000008002, 0x8000000000000080, 0x000000000000800a, 0x800000008000000a,
    0x8000000080008081, 0x8000000000008080, 0x0000000080000001, 0x8000000080008008]

def keccakfRotc : List UInt64 :=
  [1, 3, 6, 10, 15, 21, 28, 36, 45, 55, 2, 14, 27, 41, 56, 8, 25, 43, 62, 18, 39, 61, 20, 44]

def keccakfPiln : List ℕ :=
  [10, 7, 11, 17, 18, 3, 5, 16, 8, 21, 24, 4, 15, 23, 19, 13, 12, 2, 20, 14, 22, 9, 6, 1]

/-- The 25 words of the state. -/
abbrev Words := List UInt64

section Permutation

def theta (s : Words) : Words :=
  let bc := (List.range 5).map fun i =>
    s.getD i 0 ^^^ s.getD (i + 5) 0 ^^^ s.getD (i + 10) 0 ^^^ s.getD (i + 15) 0 ^^^
      s.getD (i + 20) 0
  (List.range 5).foldl (fun s i =>
    let t := bc.getD ((i + 4) % 5) 0 ^^^ rotl64 (bc.getD ((i + 1) % 5) 0) 1
    [0, 5, 10, 15, 20].foldl (fun s j => s.modify (j + i) (· ^^^ t)) s) s

def rhoPi (s : Words) : Words :=
  ((List.range 24).foldl (fun st i =>
    let j := keccakfPiln.getD i 0
    (st.2.getD j 0, st.2.set j (rotl64 st.1 (keccakfRotc.getD i 0)))) (s.getD 1 0, s)).2

def chi (s : Words) : Words :=
  [0, 5, 10, 15, 20].foldl (fun s j =>
    let bc := (List.range 5).map fun i => s.getD (j + i) 0
    (List.range 5).foldl (fun s i =>
      s.modify (j + i) (· ^^^ (~~~bc.getD ((i + 1) % 5) 0 &&& bc.getD ((i + 2) % 5) 0))) s) s

def keccakRound (s : Words) (rndc : UInt64) : Words :=
  (chi (rhoPi (theta s))).modify 0 (· ^^^ rndc)

def keccakf (s : Words) : Words := keccakfRndc.foldl keccakRound s

end Permutation

inductive Sha3Return
  | badParams
  deriving DecidableEq, Repr

inductive Sha3Flags
  | none | keccak
  deriving DecidableEq, Repr

structure Sha3Context where
  saved : UInt64
  s : Words
  byteIndex : ℕ
  wordIndex : ℕ
  capacityWords : UInt32

def spongeWords : ℕ := 25

def useKeccakFlag : UInt32 := 0x80000000

/-- `SHA3_CW`. -/
def cw (capacityWords : UInt32) : ℕ := (capacityWords &&& ~~~useKeccakFlag).toNat

def init (bitSize : ℕ) : Except Sha3Return Sha3Context :=
  if bitSize ≠ 256 ∧ bitSize ≠ 384 ∧ bitSize ≠ 512 then .error .badParams
  else .ok ⟨0, List.replicate spongeWords 0, 0, 0, UInt32.ofNat (2 * bitSize / 64)⟩

def setFlags (ctx : Sha3Context) (flags : Sha3Flags) : Sha3Context :=
  { ctx with
    capacityWords := ctx.capacityWords ||| (if flags = .keccak then useKeccakFlag else 0) }

/-- The loops that put bytes into the saved word. -/
def save (ctx : Sha3Context) (buf : Bytes) : Sha3Context :=
  buf.foldl (fun ctx b => { ctx with
    saved := ctx.saved ||| b.toUInt64 <<< UInt64.ofNat (ctx.byteIndex * 8)
    byteIndex := ctx.byteIndex + 1 }) ctx

/-- `s[i] ^= t`. -/
def xorWord (s : Words) (i : ℕ) (t : UInt64) : Option Words :=
  if i < s.length then some (s.modify i (· ^^^ t)) else none

/-- A word into the state, and the permutation after the last word of a block. -/
def addWord (ctx : Sha3Context) (t : UInt64) : Option Sha3Context := do
  let s ← xorWord ctx.s ctx.wordIndex t
  if ctx.wordIndex + 1 = spongeWords - cw ctx.capacityWords then
    return { ctx with s := keccakf s, wordIndex := 0 }
  else return { ctx with s := s, wordIndex := ctx.wordIndex + 1 }

/-- The first eight bytes as a word. -/
def loadWord (buf : Bytes) : UInt64 :=
  (buf.getD 0 0).toUInt64 ||| (buf.getD 1 0).toUInt64 <<< 8 ||| (buf.getD 2 0).toUInt64 <<< 16 |||
    (buf.getD 3 0).toUInt64 <<< 24 ||| (buf.getD 4 0).toUInt64 <<< 32 |||
    (buf.getD 5 0).toUInt64 <<< 40 ||| (buf.getD 6 0).toUInt64 <<< 48 |||
    (buf.getD 7 0).toUInt64 <<< 56

def addWords : (words : ℕ) → Sha3Context → Bytes → Option Sha3Context
  | 0, ctx, _ => some ctx
  | words + 1, ctx, buf => do
    let ctx ← addWord ctx (loadWord buf)
    addWords words ctx (buf.drop 8)

/-- The bytes that the saved word is short of, if it is begun. -/
def completeWord (ctx : Sha3Context) (head : Bytes) : Option Sha3Context :=
  if head.length ≠ 0 then
    let ctx := save ctx head
    addWord { ctx with byteIndex := 0, saved := 0 } ctx.saved
  else some ctx

/-- `none` would be a write outside the state. -/
def update (ctx : Sha3Context) (buf : Bytes) : Option Sha3Context := do
  let oldTail := (8 - ctx.byteIndex) &&& 7
  if buf.length < oldTail then return save ctx buf
  else
    let ctx ← completeWord ctx (buf.take oldTail)
    let buf := buf.drop oldTail
    let words := buf.length / 8
    let ctx ← addWords words ctx buf
    return save ctx (buf.drop (8 * words))

/-- The bytes of the state, low byte of a word first. -/
def stateBytes (s : Words) : Bytes :=
  s.flatMap fun w : UInt64 =>
    let t1 := w.toUInt32
    let t2 := (w >>> 16 >>> 16).toUInt32
    [t1.toUInt8, (t1 >>> 8).toUInt8, (t1 >>> 16).toUInt8, (t1 >>> 24).toUInt8,
      t2.toUInt8, (t2 >>> 8).toUInt8, (t2 >>> 16).toUInt8, (t2 >>> 24).toUInt8]

def finalize (ctx : Sha3Context) : Option Bytes := do
  let mark : UInt64 := if ctx.capacityWords &&& useKeccakFlag ≠ 0 then 1
    else (0x02 : UInt64) ||| (1 : UInt64) <<< 2
  let t := mark <<< UInt64.ofNat (ctx.byteIndex * 8)
  let s ← xorWord ctx.s ctx.wordIndex (ctx.saved ^^^ t)
  let s ← xorWord s (spongeWords - cw ctx.capacityWords - 1) 0x8000000000000000
  return stateBytes (keccakf s)

def hashBuffer (bitSize : ℕ) (flags : Sha3Flags) (data : Bytes) (outBytes : ℕ) :
    Option (Except Sha3Return Bytes) :=
  match init bitSize with
  | .error e => some (.error e)
  | .ok c => do
    let c ← update (setFlags c flags) data
    let h ← finalize c
    return .ok (h.take (min outBytes (bitSize / 8)))

/-- `eth_hash::hash_256`. -/
def hash256 (msg : Bytes) : Option (Except Sha3Return Bytes) := hashBuffer 256 .keccak msg 32

def messagePrefix : Bytes :=
  [0x19, 0x45, 0x74, 0x68, 0x65, 0x72, 0x65, 0x75, 0x6d, 0x20, 0x53, 0x69, 0x67, 0x6e, 0x65, 0x64,
    0x20, 0x4d, 0x65, 0x73, 0x73, 0x61, 0x67, 0x65, 0x3a, 0x0a, 0x33, 0x32]

/-- `eth_hash::msg_hash`. -/
def msgHash (rawMsg : Bytes) : Option (Except Sha3Return Bytes) := do
  match ← hash256 rawMsg with
  | .error e => return .error e
  | .ok hash => hash256 (messagePrefix ++ hash)

/-! The sponge by bytes: each byte of a block has its place in the state. -/

/-- Bytes into the state from byte `i` on. -/
def xorBytes (i : ℕ) (s : Words) : Bytes → Words
  | [] => s
  | b :: bs =>
    xorBytes (i + 1) (s.modify (i / 8) (· ^^^ b.toUInt64 <<< UInt64.ofNat (i % 8 * 8))) bs

def absorbBlock (s : Words) (block : Bytes) : Words := keccakf (xorBytes 0 s block)

/-- The mark, zeros, and a last bit, which the byte of the mark can hold as well. -/
def padding (mark : UInt8) (missing : ℕ) : Bytes :=
  if missing = 1 then [mark ^^^ 0x80] else mark :: List.replicate (missing - 2) 0 ++ [0x80]

def sponge (rate : ℕ) (mark : UInt8) (msg : Bytes) : Bytes :=
  stateBytes (absorb rate absorbBlock (List.replicate 25 0)
    (msg ++ padding mark (rate - msg.length % rate))).1

section Length

lemma foldl_length {β : Type} {f : Words → β → Words} (h : ∀ s b, (f s b).length = s.length)
    (bs : List β) (s : Words) : (bs.foldl f s).length = s.length := by
  induction bs generalizing s with
  | nil => rfl
  | cons b bs ih => rw [List.foldl_cons, ih, h]

theorem theta_length (s : Words) : (theta s).length = s.length := by
  unfold theta
  apply foldl_length
  intro s i
  exact foldl_length (fun s j => List.length_modify ..) _ s

theorem rhoPi_length (s : Words) : (rhoPi s).length = s.length := by
  have hrun : ∀ (is : List ℕ) (st : UInt64 × Words), (is.foldl (fun st i =>
      let j := keccakfPiln.getD i 0
      (st.2.getD j 0, st.2.set j (rotl64 st.1 (keccakfRotc.getD i 0)))) st).2.length =
        st.2.length := by
    intro is
    induction is with
    | nil => intro st; rfl
    | cons i is ih => intro st; rw [List.foldl_cons, ih, List.length_set]
  exact hrun _ _

theorem chi_length (s : Words) : (chi s).length = s.length := by
  unfold chi
  apply foldl_length
  intro s j
  exact foldl_length (fun s i => List.length_modify ..) _ s

theorem keccakf_length (s : Words) : (keccakf s).length = s.length := by
  unfold keccakf
  apply foldl_length
  intro s rndc
  rw [keccakRound, List.length_modify, chi_length, rhoPi_length, theta_length]

end Length

section Bytes

theorem xorBytes_append (i : ℕ) (s : Words) (xs ys : Bytes) :
    xorBytes i s (xs ++ ys) = xorBytes (i + xs.length) (xorBytes i s xs) ys := by
  induction xs generalizing i s with
  | nil => rfl
  | cons x xs ih =>
    rw [List.cons_append, xorBytes, xorBytes, ih, List.length_cons]
    congr 1
    omega

lemma modify_xor_xor (s : Words) (i : ℕ) (a b : UInt64) :
    (s.modify i (· ^^^ a)).modify i (· ^^^ b) = s.modify i (· ^^^ (a ^^^ b)) := by
  rw [List.modify_modify_eq]
  congr 1
  funext x
  exact UInt64.xor_assoc x a b

lemma modify_xor_zero (s : Words) (i : ℕ) : s.modify i (· ^^^ 0) = s := by
  have hid : (fun x : UInt64 => x ^^^ 0) = id := by
    funext x
    exact UInt64.xor_zero
  rw [hid, List.modify_id]

theorem xorBytes_zeros (i n : ℕ) (s : Words) : xorBytes i s (List.replicate n 0) = s := by
  induction n generalizing i s with
  | zero => rfl
  | succ n ih =>
    have hzero : (0 : UInt8).toUInt64 <<< UInt64.ofNat (i % 8 * 8) = 0 := UInt64.zero_shiftLeft
    rw [List.replicate_succ, xorBytes, hzero, modify_xor_zero, ih]

lemma byte_toNat {i : ℕ} (hi : i < 8) (b : UInt8) :
    (b.toUInt64 <<< UInt64.ofNat (i * 8)).toNat = b.toNat * 2 ^ (i * 8) := by
  have hb := b.toNat_lt
  have hsize : b.toNat * 2 ^ (i * 8) < 2 ^ 64 :=
    calc b.toNat * 2 ^ (i * 8) < 2 ^ 8 * 2 ^ (i * 8) :=
          Nat.mul_lt_mul_of_pos_right hb (Nat.two_pow_pos _)
      _ = 2 ^ (8 + i * 8) := (Nat.pow_add 2 8 (i * 8)).symm
      _ ≤ 2 ^ 64 := Nat.pow_le_pow_right (by decide) (by omega)
  have hshift : i * 8 < UInt64.size := (show i * 8 < 64 by omega).trans (by decide)
  rw [UInt64.toNat_shiftLeft, UInt8.toNat_toUInt64, UInt64.toNat_ofNat_of_lt' hshift,
    Nat.mod_eq_of_lt (show i * 8 < 64 by omega), Nat.shiftLeft_eq, Nat.mod_eq_of_lt hsize]

/-- A byte above the bits of a word. -/
lemma or_byte {x : UInt64} {i : ℕ} (hi : i < 8) (hx : x.toNat < 2 ^ (i * 8)) (b : UInt8) :
    x ||| b.toUInt64 <<< UInt64.ofNat (i * 8) = x ^^^ b.toUInt64 <<< UInt64.ofNat (i * 8) ∧
      (x ||| b.toUInt64 <<< UInt64.ofNat (i * 8)).toNat < 2 ^ ((i + 1) * 8) := by
  have hb := b.toNat_lt
  constructor
  · apply UInt64.toNat_inj.mp
    rw [UInt64.toNat_or, UInt64.toNat_xor, byte_toNat hi]
    apply Nat.eq_of_testBit_eq
    intro j
    rw [Nat.testBit_or, Nat.testBit_xor, Nat.testBit_mul_two_pow]
    by_cases hj : i * 8 ≤ j
    · rw [Nat.testBit_lt_two_pow (hx.trans_le (Nat.pow_le_pow_right (by decide) hj))]
      simp
    · simp [hj]
  · rw [UInt64.toNat_or, byte_toNat hi]
    apply Nat.or_lt_two_pow
    · exact hx.trans_le (Nat.pow_le_pow_right (by decide) (by omega))
    · calc b.toNat * 2 ^ (i * 8) < 2 ^ 8 * 2 ^ (i * 8) :=
            Nat.mul_lt_mul_of_pos_right hb (Nat.two_pow_pos _)
        _ = 2 ^ ((i + 1) * 8) := by rw [← Nat.pow_add]; congr 1; omega

end Bytes

section Sponge
variable {capacity : UInt32} {ctx : Sha3Context} {s : Words} {rest : Bytes}

/-- The context holds a block begun with `rest` on top of the state `s`: whole words in the state
and up to eight bytes in the saved word. -/
structure Fills (capacity : UInt32) (ctx : Sha3Context) (s : Words) (rest : Bytes) : Prop where
  capacity_eq : ctx.capacityWords = capacity
  size : ctx.s.length = 25
  length_eq : rest.length = 8 * ctx.wordIndex + ctx.byteIndex
  byteIndex_le : ctx.byteIndex ≤ 8
  saved_lt : ctx.saved.toNat < 2 ^ (ctx.byteIndex * 8)
  state_eq : ctx.s.modify ctx.wordIndex (· ^^^ ctx.saved) = xorBytes 0 s rest

theorem Fills.save_one (h : Fills capacity ctx s rest) (hroom : ctx.byteIndex < 8) (b : UInt8) :
    Fills capacity (save ctx [b]) s (rest ++ [b]) := by
  obtain ⟨hor, hlt⟩ := or_byte hroom h.saved_lt b
  have hdiv : rest.length / 8 = ctx.wordIndex := by
    have hlength := h.length_eq
    omega
  have hmod : rest.length % 8 = ctx.byteIndex := by
    have hlength := h.length_eq
    omega
  refine ⟨h.capacity_eq, h.size, ?_, hroom, hlt, ?_⟩
  · rw [List.length_append, h.length_eq]
    rfl
  · change ctx.s.modify ctx.wordIndex
      (· ^^^ (ctx.saved ||| b.toUInt64 <<< UInt64.ofNat (ctx.byteIndex * 8))) = _
    rw [xorBytes_append, ← h.state_eq, xorBytes, xorBytes, Nat.zero_add, hdiv, hmod,
      modify_xor_xor, hor]

lemma save_cons (ctx : Sha3Context) (b : UInt8) (bs : Bytes) :
    save ctx (b :: bs) = save (save ctx [b]) bs := rfl

theorem Fills.save (h : Fills capacity ctx s rest) (bs : Bytes)
    (hroom : ctx.byteIndex + bs.length ≤ 8) :
    Fills capacity (save ctx bs) s (rest ++ bs) ∧
      (Keccak.save ctx bs).byteIndex = ctx.byteIndex + bs.length ∧
      (Keccak.save ctx bs).wordIndex = ctx.wordIndex ∧ (Keccak.save ctx bs).s = ctx.s := by
  induction bs generalizing ctx rest with
  | nil =>
    rw [List.append_nil]
    exact ⟨h, rfl, rfl, rfl⟩
  | cons b bs ih =>
    rw [List.length_cons] at hroom
    have hone := h.save_one (by omega) b
    have hbyte : (Keccak.save ctx [b]).byteIndex = ctx.byteIndex + 1 := rfl
    obtain ⟨hfills, hindex, hword, hs⟩ := ih hone (by rw [hbyte]; omega)
    rw [save_cons]
    refine ⟨?_, ?_, hword, hs⟩
    · rw [List.append_assoc] at hfills
      exact hfills
    · rw [hindex, hbyte, List.length_cons]
      omega

/-- Between two calls a word is not complete. -/
def Holds (capacity : UInt32) (ctx : Sha3Context) (p : Words × Bytes) : Prop :=
  Fills capacity ctx p.1 p.2 ∧ ctx.byteIndex < 8

/-- The eight bytes of a complete word go into the state, and a complete block through the
permutation. -/
theorem Fills.addWord (h : Fills capacity ctx s rest) (hfull : ctx.byteIndex = 8)
    {rate : ℕ} (hrate : 8 * (spongeWords - cw capacity) = rate) (hroom : rest.length ≤ rate) :
    ∃ ctx', addWord { ctx with byteIndex := 0, saved := 0 } ctx.saved = some ctx' ∧
      Holds capacity ctx' (absorb rate absorbBlock s rest) ∧ ctx'.byteIndex = 0 := by
  have hlength := h.length_eq
  have hinside : ctx.wordIndex < ctx.s.length := by
    have hwords : spongeWords - cw capacity ≤ 25 := Nat.sub_le _ _
    rw [h.size]
    omega
  have hxor : xorWord ctx.s ctx.wordIndex ctx.saved = some (xorBytes 0 s rest) := by
    rw [xorWord, if_pos hinside, h.state_eq]
  have hsize : (xorBytes 0 s rest).length = 25 := by
    rw [← h.state_eq, List.length_modify, h.size]
  unfold Keccak.addWord
  simp only [hxor, h.capacity_eq]
  by_cases hlast : ctx.wordIndex + 1 = spongeWords - cw capacity
  · have hblock : rest.length = rate := by omega
    have hnil : absorb rate absorbBlock (absorbBlock s rest) [] = (absorbBlock s rest, []) :=
      absorb_of_lt (show ([] : Bytes).length < rate by rw [List.length_nil]; omega)
    have habsorb : absorb rate absorbBlock s rest = (absorbBlock s rest, []) := by
      have hstep := @absorb_block _ _ rate absorbBlock s (by omega) rest [] hblock
      rw [List.append_nil] at hstep
      rw [hstep, hnil]
    refine ⟨_, by simp only [Option.bind_eq_bind, Option.bind_some, hlast, if_true]; rfl, ?_, rfl⟩
    rw [habsorb]
    refine ⟨⟨rfl, ?_, rfl, by simp, by simp, ?_⟩, by simp⟩
    · simp only
      rw [keccakf_length, hsize]
    · exact modify_xor_zero _ _
  · refine ⟨_, by simp only [Option.bind_eq_bind, Option.bind_some, hlast, if_false]; rfl, ?_, rfl⟩
    rw [absorb_of_lt (by omega)]
    refine ⟨⟨rfl, hsize, by simp only; omega, by simp, by simp, ?_⟩, by simp⟩
    exact modify_xor_zero _ _

lemma save_loadWord (hindex : ctx.byteIndex = 0) (hsaved : ctx.saved = 0) {buf : Bytes}
    (hbuf : 8 ≤ buf.length) : (save ctx (buf.take 8)).saved = loadWord buf := by
  match buf, hbuf with
  | b₀ :: b₁ :: b₂ :: b₃ :: b₄ :: b₅ :: b₆ :: b₇ :: _, _ =>
    simp only [List.take_succ_cons, List.take_zero, save, List.foldl_cons, List.foldl_nil, hindex,
      hsaved, UInt64.zero_or]
    change b₀.toUInt64 <<< 0 ||| _ ||| _ ||| _ ||| _ ||| _ ||| _ ||| _ = _
    rw [UInt64.shiftLeft_zero]
    rfl

theorem Holds.aligned {p : Words × Bytes} (h : Holds capacity ctx p)
    (hindex : ctx.byteIndex = 0) : ctx.saved = 0 := by
  have hlt := h.1.saved_lt
  rw [hindex] at hlt
  apply UInt64.toNat_inj.mp
  rw [UInt64.toNat_zero]
  omega

/-- Words straight from the input are their bytes one after another. -/
theorem Holds.addWords {p : Words × Bytes} (h : Holds capacity ctx p)
    (hindex : ctx.byteIndex = 0) {rate : ℕ} (hrate : 8 * (spongeWords - cw capacity) = rate)
    (hrest : p.2.length < rate) (words : ℕ) {buf : Bytes} (hbuf : 8 * words ≤ buf.length) :
    ∃ ctx', addWords words ctx buf = some ctx' ∧
      Holds capacity ctx' (absorb rate absorbBlock p.1 (p.2 ++ buf.take (8 * words))) ∧
      ctx'.byteIndex = 0 := by
  induction words generalizing ctx p buf with
  | zero =>
    rw [Nat.mul_zero, List.take_zero, List.append_nil, absorb_of_lt hrest]
    exact ⟨ctx, rfl, h, hindex⟩
  | succ words ih =>
    have hsaved := h.aligned hindex
    have hlength := h.1.length_eq
    have height : (buf.take 8).length = 8 := by
      rw [List.length_take]
      omega
    obtain ⟨hfills, hfull, hword, hs⟩ := h.1.save (buf.take 8) (by rw [hindex, height])
    have hroom : (p.2 ++ buf.take 8).length ≤ rate := by
      rw [List.length_append, height]
      omega
    obtain ⟨ctx', hstep, hctx', hindex'⟩ := hfills.addWord
      (by rw [hfull, hindex, height]) hrate hroom
    have hsame : { save ctx (buf.take 8) with byteIndex := 0, saved := 0 } = ctx := by
      have hcapacity := hfills.capacity_eq.trans h.1.capacity_eq.symm
      simp only [hword, hs, hcapacity]
      rw [← hindex, ← hsaved]
    rw [save_loadWord hindex hsaved (by omega), hsame] at hstep
    have hbuf' : 8 * words ≤ (buf.drop 8).length := by
      rw [List.length_drop]
      omega
    obtain ⟨ctx'', hrun, hctx'', hindex''⟩ := ih hctx' hindex'
      (absorb_rest_lt (by omega) p.1 _) hbuf'
    refine ⟨ctx'', ?_, ?_, hindex''⟩
    · rw [Keccak.addWords, hstep, Option.bind_eq_bind, Option.bind_some, hrun]
    · have hsplit : buf.take (8 * (words + 1)) = buf.take 8 ++ (buf.drop 8).take (8 * words) := by
        rw [Nat.mul_succ, Nat.add_comm, List.take_add]
      rw [← absorb_append (by omega), List.append_assoc, ← hsplit] at hctx''
      exact hctx''

/-- The word in hand is completed first, if there is one. -/
theorem Holds.complete {p : Words × Bytes} (h : Holds capacity ctx p) {rate : ℕ}
    (hrate : 8 * (spongeWords - cw capacity) = rate) (hrest : p.2.length < rate) {head : Bytes}
    (hhead : head.length = (8 - ctx.byteIndex) % 8) :
    ∃ ctx', completeWord ctx head = some ctx' ∧
      Holds capacity ctx' (absorb rate absorbBlock p.1 (p.2 ++ head)) ∧ ctx'.byteIndex = 0 := by
  have hindex := h.2
  have hlength := h.1.length_eq
  unfold completeWord
  by_cases hzero : head.length = 0
  · rw [if_neg (by simpa using hzero), List.length_eq_zero_iff.mp hzero, List.append_nil,
      absorb_of_lt hrest]
    exact ⟨ctx, rfl, h, by omega⟩
  · obtain ⟨hfills, hfull, -, -⟩ := h.1.save head (by omega)
    rw [if_pos hzero]
    exact hfills.addWord (by omega) hrate (by rw [List.length_append]; omega)

theorem update_spec {p : Words × Bytes} (h : Holds capacity ctx p) {rate : ℕ}
    (hrate : 8 * (spongeWords - cw capacity) = rate) (hrest : p.2.length < rate) (buf : Bytes) :
    ∃ ctx', update ctx buf = some ctx' ∧
      Holds capacity ctx' (absorb rate absorbBlock p.1 (p.2 ++ buf)) := by
  have hlength := h.1.length_eq
  have hindex := h.2
  have htail : (8 - ctx.byteIndex) &&& 7 = (8 - ctx.byteIndex) % 8 :=
    Nat.and_two_pow_sub_one_eq_mod (8 - ctx.byteIndex) 3
  unfold update
  rw [htail]
  by_cases hshort : buf.length < (8 - ctx.byteIndex) % 8
  · obtain ⟨hfills, hfull, -, -⟩ := h.1.save buf (by omega)
    refine ⟨save ctx buf, by simp only [hshort, if_true]; rfl, ?_⟩
    rw [absorb_of_lt (by rw [List.length_append]; omega)]
    exact ⟨hfills, by rw [hfull]; omega⟩
  · set head := buf.take ((8 - ctx.byteIndex) % 8) with hhead
    set data := buf.drop ((8 - ctx.byteIndex) % 8) with hdata
    set body := data.take (8 * (data.length / 8)) with hbody
    set left := data.drop (8 * (data.length / 8)) with hleft
    have hheadlen : head.length = (8 - ctx.byteIndex) % 8 := by
      rw [hhead, List.length_take]
      omega
    have hleftlen : left.length < 8 := by
      rw [hleft, List.length_drop]
      omega
    have hbuf : p.2 ++ buf = p.2 ++ head ++ body ++ left := by
      rw [List.append_assoc, List.append_assoc, hbody, hleft, List.take_append_drop, hhead, hdata,
        List.take_append_drop]
    obtain ⟨ctx₁, hstep, hctx₁, hindex₁⟩ := h.complete hrate hrest hheadlen
    obtain ⟨ctx₂, hwords, hctx₂, hindex₂⟩ := hctx₁.addWords hindex₁ hrate
      (absorb_rest_lt (by omega) p.1 _) (data.length / 8) (Nat.mul_div_le data.length 8)
    rw [← absorb_append (by omega), ← hbody] at hctx₂
    have hrest₂ := absorb_rest_lt (f := absorbBlock) (show 0 < rate by omega) p.1
      (p.2 ++ head ++ body)
    have hlength₂ := hctx₂.1.length_eq
    obtain ⟨hfills, hfull, -, -⟩ := hctx₂.1.save left (by omega)
    refine ⟨save ctx₂ left, ?_, ?_⟩
    · simp only [hshort, if_false, ← hhead, ← hdata, hstep, Option.bind_eq_bind, Option.bind_some,
        hwords]
      rfl
    · rw [hbuf, absorb_append (by omega), absorb_of_lt (by rw [List.length_append]; omega)]
      exact ⟨hfills, by rw [hfull]; omega⟩

/-- The first byte of the padding. -/
def markOf (capacity : UInt32) : UInt8 := if capacity &&& useKeccakFlag ≠ 0 then 0x01 else 0x06

/-- The padding changes the word in which it begins and the last word of the block. -/
theorem xorBytes_padding {words len : ℕ} (hlen : len < 8 * words) (s : Words) (mark : UInt8) :
    xorBytes len s (padding mark (8 * words - len)) =
      (s.modify (len / 8) (· ^^^ mark.toUInt64 <<< UInt64.ofNat (len % 8 * 8))).modify (words - 1)
        (· ^^^ 0x8000000000000000) := by
  have htop : (0x80 : UInt8).toUInt64 <<< UInt64.ofNat (7 * 8) = 0x8000000000000000 := by decide
  by_cases hone : 8 * words - len = 1
  · have hword : len / 8 = words - 1 := by omega
    have hbyte : len % 8 = 7 := by omega
    rw [padding, if_pos hone, xorBytes, xorBytes, hword, hbyte, modify_xor_xor,
      UInt8.toUInt64_xor, UInt64.shiftLeft_xor, htop]
  · have hlast : (len + (mark :: List.replicate (8 * words - len - 2) 0).length) / 8 =
        words - 1 := by
      rw [List.length_cons, List.length_replicate]
      omega
    have hbyte : (len + (mark :: List.replicate (8 * words - len - 2) 0).length) % 8 = 7 := by
      rw [List.length_cons, List.length_replicate]
      omega
    rw [padding, if_neg hone, xorBytes_append, xorBytes, xorBytes, xorBytes, xorBytes_zeros, hlast,
      hbyte, htop]

theorem finalize_spec {p : Words × Bytes} (h : Holds capacity ctx p) {rate : ℕ}
    (hrate : 8 * (spongeWords - cw capacity) = rate) (hrest : p.2.length < rate) :
    finalize ctx = some (stateBytes (absorb rate absorbBlock p.1
      (p.2 ++ padding (markOf capacity) (rate - p.2.length))).1) := by
  obtain ⟨hfills, hindex⟩ := h
  have hlength := hfills.length_eq
  have hwords : spongeWords - cw capacity ≤ 25 := Nat.sub_le _ _
  have hmark : (if ctx.capacityWords &&& useKeccakFlag ≠ 0 then (1 : UInt64)
      else (0x02 : UInt64) ||| (1 : UInt64) <<< 2) = (markOf capacity).toUInt64 := by
    rw [hfills.capacity_eq, markOf]
    split_ifs <;> rfl
  have hdiv : p.2.length / 8 = ctx.wordIndex := by omega
  have hmod : p.2.length % 8 = ctx.byteIndex := by omega
  have hsize : (ctx.s.modify ctx.wordIndex (· ^^^ (ctx.saved ^^^
      (markOf capacity).toUInt64 <<< UInt64.ofNat (ctx.byteIndex * 8)))).length = 25 := by
    rw [List.length_modify, hfills.size]
  have hpadded : (p.2 ++ padding (markOf capacity) (rate - p.2.length)).length = rate := by
    rw [List.length_append, padding]
    split_ifs with hone
    · rw [List.length_singleton]
      omega
    · rw [List.length_append, List.length_cons, List.length_replicate, List.length_singleton]
      omega
  have hnil : ∀ s, absorb rate absorbBlock s [] = (s, []) := fun s =>
    absorb_of_lt (show ([] : Bytes).length < rate by rw [List.length_nil]; omega)
  have hblock := @absorb_block _ _ rate absorbBlock p.1 (by omega) _ [] hpadded
  rw [List.append_nil, hnil] at hblock
  have hpadding := xorBytes_padding (show p.2.length < 8 * (spongeWords - cw capacity) by omega)
    (xorBytes 0 p.1 p.2) (markOf capacity)
  rw [hrate, hdiv, hmod, ← hfills.state_eq, modify_xor_xor] at hpadding
  rw [hblock, absorbBlock, xorBytes_append, Nat.zero_add, ← hfills.state_eq, hpadding]
  unfold finalize
  simp only [hmark]
  rw [xorWord, if_pos (by rw [hfills.size]; omega), Option.bind_eq_bind, Option.bind_some, xorWord,
    if_pos (by rw [hsize, hfills.capacity_eq]; omega), Option.bind_some, hfills.capacity_eq]
  rfl

theorem updates_finalize_spec {capacity : UInt32} {rate : ℕ}
    (hrate : 8 * (spongeWords - cw capacity) = rate) (hpos : 0 < rate) (pieces : List Bytes) :
    (do
      let ctx ← pieces.foldlM update ⟨0, List.replicate spongeWords 0, 0, 0, capacity⟩
      finalize ctx) = some (sponge rate (markOf capacity) pieces.flatten) := by
  have hstart : Holds capacity ⟨0, List.replicate spongeWords 0, 0, 0, capacity⟩
      (List.replicate 25 0, []) :=
    ⟨⟨rfl, rfl, rfl, by simp, by simp, modify_xor_zero _ _⟩, by simp⟩
  obtain ⟨ctx, hrun, hctx⟩ := foldlM_simulates hpos (f := absorbBlock) (R := Holds capacity)
    (fun ctx s rest data hrest h => update_spec h hrate hrest data) pieces
    (show ([] : Bytes).length < rate by simpa using hpos) hstart
  rw [List.nil_append] at hctx
  have hlt := absorb_rest_lt hpos (f := absorbBlock) (List.replicate 25 0) pieces.flatten
  have hleft : (absorb rate absorbBlock (List.replicate 25 0) pieces.flatten).2.length =
      pieces.flatten.length % rate := by
    have hdiv := Nat.mod_add_div pieces.flatten.length rate
    rw [absorb, List.length_drop]
    omega
  rw [hrun, Option.bind_eq_bind, Option.bind_some, finalize_spec hctx hrate hlt,
    ← absorb_append hpos, hleft]
  rfl

section Digest
variable {bitSize : ℕ}

/-- The rate of a digest size, and the mark of a padding. -/
lemma digest_parameters (hsize : bitSize = 256 ∨ bitSize = 384 ∨ bitSize = 512)
    (flags : Sha3Flags) :
    ∃ capacity, init bitSize = .ok ⟨0, List.replicate spongeWords 0, 0, 0,
        UInt32.ofNat (2 * bitSize / 64)⟩ ∧
      UInt32.ofNat (2 * bitSize / 64) ||| (if flags = .keccak then useKeccakFlag else 0) =
        capacity ∧
      8 * (spongeWords - cw capacity) = 200 - bitSize / 4 ∧
      markOf capacity = if flags = .keccak then 0x01 else 0x06 := by
  refine ⟨_, by rw [init, if_neg (by omega)], rfl, ?_, ?_⟩
  · rcases hsize with rfl | rfl | rfl <;> cases flags <;> decide
  · rcases hsize with rfl | rfl | rfl <;> cases flags <;> decide

theorem hashBuffer_eq (hsize : bitSize = 256 ∨ bitSize = 384 ∨ bitSize = 512)
    (flags : Sha3Flags) (data : Bytes) (outBytes : ℕ) :
    hashBuffer bitSize flags data outBytes = some (.ok
      ((sponge (200 - bitSize / 4) (if flags = .keccak then 0x01 else 0x06) data).take
        (min outBytes (bitSize / 8)))) := by
  obtain ⟨capacity, hinit, hcapacity, hrate, hmark⟩ := digest_parameters hsize flags
  have hrun := updates_finalize_spec hrate (by omega) [data]
  rw [hmark, List.flatten_singleton, List.foldlM_cons] at hrun
  simp only [List.foldlM_nil, bind_pure] at hrun
  rw [hashBuffer, hinit]
  simp only [setFlags, hcapacity]
  change (update _ data >>= fun ctx => finalize ctx >>= _) = _
  rw [← bind_assoc]
  exact congrArg (Option.bind · _) hrun

/-- The digest of a message is the digest of its tagged digest. -/
theorem msgHash_eq (rawMsg : Bytes) :
    msgHash rawMsg = some (.ok ((sponge 136 0x01
      (messagePrefix ++ (sponge 136 0x01 rawMsg).take 32)).take 32)) := by
  have hash (msg : Bytes) : hash256 msg = some (.ok ((sponge 136 0x01 msg).take 32)) :=
    hashBuffer_eq (.inl rfl) .keccak msg 32
  rw [msgHash, hash, Option.bind_eq_bind, Option.bind_some]
  exact hash _

example : hash256 [0x61, 0x62, 0x63] = some (.ok
    [0x4e, 0x03, 0x65, 0x7a, 0xea, 0x45, 0xa9, 0x4f, 0xc7, 0xd4, 0x7b, 0xa8, 0x26, 0xc8, 0xd6, 0x67,
      0xc0, 0xd1, 0xe6, 0xe3, 0x3a, 0x64, 0xa0, 0x36, 0xec, 0x44, 0xf5, 0x8f, 0xa1, 0x2d, 0x6c,
      0x45]) := by
  decide +kernel

end Digest

end Sponge

end PrivacyComputing.Keccak
