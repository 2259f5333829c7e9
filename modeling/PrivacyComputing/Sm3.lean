import Mathlib.Data.UInt
import Mathlib.Logic.Function.Basic
import PrivacyComputing.BigEndian
import PrivacyComputing.BlockStream
import PrivacyComputing.CryptoPack
import PrivacyComputing.MemoryLayout

/-! The hash of the `gmssl` pack, `sm3_init`, `sm3_update` and `sm3_finish` with the unrolled
compression function, over a context whose block buffer is written in windows. -/
namespace PrivacyComputing.Sm3
open BigEndian BlockStream BufferWindow

def p0 (x : UInt32) : UInt32 := x ^^^ rol32 x 9 ^^^ rol32 x 17
def p1 (x : UInt32) : UInt32 := x ^^^ rol32 x 15 ^^^ rol32 x 23

def ff00 (x y z : UInt32) : UInt32 := x ^^^ y ^^^ z
def ff16 (x y z : UInt32) : UInt32 := (x &&& y) ||| (x &&& z) ||| (y &&& z)
def gg00 (x y z : UInt32) : UInt32 := x ^^^ y ^^^ z
def gg16 (x y z : UInt32) : UInt32 := ((y ^^^ z) &&& x) ^^^ z

def tableK : List UInt32 :=
  [0x79cc4519, 0xf3988a32, 0xe7311465, 0xce6228cb, 0x9cc45197, 0x3988a32f, 0x7311465e, 0xe6228cbc,
  0xcc451979, 0x988a32f3, 0x311465e7, 0x6228cbce, 0xc451979c, 0x88a32f39, 0x11465e73, 0x228cbce6,
  0x9d8a7a87, 0x3b14f50f, 0x7629ea1e, 0xec53d43c, 0xd8a7a879, 0xb14f50f3, 0x629ea1e7, 0xc53d43ce,
  0x8a7a879d, 0x14f50f3b, 0x29ea1e76, 0x53d43cec, 0xa7a879d8, 0x4f50f3b1, 0x9ea1e762, 0x3d43cec5,
  0x7a879d8a, 0xf50f3b14, 0xea1e7629, 0xd43cec53, 0xa879d8a7, 0x50f3b14f, 0xa1e7629e, 0x43cec53d,
  0x879d8a7a, 0x0f3b14f5, 0x1e7629ea, 0x3cec53d4, 0x79d8a7a8, 0xf3b14f50, 0xe7629ea1, 0xcec53d43,
  0x9d8a7a87, 0x3b14f50f, 0x7629ea1e, 0xec53d43c, 0xd8a7a879, 0xb14f50f3, 0x629ea1e7, 0xc53d43ce,
  0x8a7a879d, 0x14f50f3b, 0x29ea1e76, 0x53d43cec, 0xa7a879d8, 0x4f50f3b1, 0x9ea1e762, 0x3d43cec5]

/-- `digest[8]`. -/
structure Digest where
  (a b c d e f g h : UInt32)
  deriving DecidableEq, Repr

/-- The local variables `A` to `H`. -/
inductive Register
  | a | b | c | d | e | f | g | h
  deriving DecidableEq, Repr

abbrev Registers := Register → UInt32

section Compress
variable (ff gg : UInt32 → UInt32 → UInt32 → UInt32) (W : List UInt32)

/-- The macro `R`, with the registers it is given and the counter `j`. -/
def r (A B C D E F G H : Register) (s : Registers × ℕ) : Registers × ℕ :=
  let x := s.1
  let j := s.2
  let ss1 := rol32 (rol32 (x A) 12 + x E + tableK.getD j 0) 7
  let ss2 := ss1 ^^^ rol32 (x A) 12
  let tt1 := ff (x A) (x B) (x C) + x D + ss2 + (W.getD j 0 ^^^ W.getD (j + 4) 0)
  let tt2 := gg (x E) (x F) (x G) + x H + ss1 + W.getD j 0
  let x := Function.update x B (rol32 (x B) 9)
  let x := Function.update x H tt1
  let x := Function.update x F (rol32 (x F) 19)
  let x := Function.update x D (p0 tt2)
  (x, j + 1)

/-- The macro `R8`. -/
def r8 (A B C D E F G H : Register) (s : Registers × ℕ) : Registers × ℕ :=
  let s := r ff gg W A B C D E F G H s
  let s := r ff gg W H A B C D E F G s
  let s := r ff gg W G H A B C D E F s
  let s := r ff gg W F G H A B C D E s
  let s := r ff gg W E F G H A B C D s
  let s := r ff gg W D E F G H A B C s
  let s := r ff gg W C D E F G H A B s
  r ff gg W B C D E F G H A s

end Compress

/-- The next word of the schedule, `W[j]` for `j` from 16 on. -/
def nextWord (W : List UInt32) : UInt32 :=
  let j := W.length
  p1 (W.getD (j - 16) 0 ^^^ W.getD (j - 9) 0 ^^^ rol32 (W.getD (j - 3) 0) 15) ^^^
    rol32 (W.getD (j - 13) 0) 7 ^^^ W.getD (j - 6) 0

def expand : (words : ℕ) → List UInt32 → List UInt32
  | 0, W => W
  | words + 1, W => expand words (W ++ [nextWord W])

def schedule (data : Bytes) : List UInt32 :=
  expand 52 ((List.range 16).map fun j => getU32 (data.drop (j * 4)))

/-- The rounds with `FULL_UNROLL`. -/
def unrolledRounds (W : List UInt32) (s : Registers × ℕ) : Registers × ℕ :=
  let s := r8 ff00 gg00 W .a .b .c .d .e .f .g .h s
  let s := r8 ff00 gg00 W .a .b .c .d .e .f .g .h s
  let s := r8 ff16 gg16 W .a .b .c .d .e .f .g .h s
  let s := r8 ff16 gg16 W .a .b .c .d .e .f .g .h s
  let s := r8 ff16 gg16 W .a .b .c .d .e .f .g .h s
  let s := r8 ff16 gg16 W .a .b .c .d .e .f .g .h s
  let s := r8 ff16 gg16 W .a .b .c .d .e .f .g .h s
  r8 ff16 gg16 W .a .b .c .d .e .f .g .h s

def Digest.registers (x : Digest) : Registers
  | .a => x.a | .b => x.b | .c => x.c | .d => x.d
  | .e => x.e | .f => x.f | .g => x.g | .h => x.h

/-- One block of `sm3_compress_blocks`. -/
def compressBlock (digest : Digest) (data : Bytes) : Digest :=
  let x := (unrolledRounds (schedule data) (digest.registers, 0)).1
  ⟨digest.a ^^^ x .a, digest.b ^^^ x .b, digest.c ^^^ x .c, digest.d ^^^ x .d,
    digest.e ^^^ x .e, digest.f ^^^ x .f, digest.g ^^^ x .g, digest.h ^^^ x .h⟩

def compressBlocks (digest : Digest) (data : Bytes) (blocks : ℕ) : Digest :=
  absorbBlocks 64 compressBlock blocks digest data

structure Sm3Ctx where
  digest : Digest
  nblocks : UInt64
  block : Bytes
  num : ℕ

def init : Sm3Ctx where
  digest := ⟨0x7380166F, 0x4914B2B9, 0x172442D7, 0xDA8A0600, 0xA96F30BC, 0x163138AA, 0xE38DEE4D,
    0xB0FB0E4E⟩
  nblocks := 0
  block := List.replicate 64 0
  num := 0

/-- The end of `sm3_update`, when no bytes wait in the block buffer. -/
def updateBlocks (ctx : Sm3Ctx) (data : Bytes) : Option Sm3Ctx := do
  let blocks := data.length / 64
  let digest := compressBlocks ctx.digest data blocks
  let data := data.drop (64 * blocks)
  let block ← if data ≠ [] then poke ctx.block 0 data else some ctx.block
  return ⟨digest, ctx.nblocks + UInt64.ofNat blocks, block, data.length⟩

/-- `none` would be a write outside the block buffer. -/
def update (ctx : Sm3Ctx) (data : Bytes) : Option Sm3Ctx := do
  let num := ctx.num &&& 0x3f
  if num ≠ 0 then
    let left := 64 - num
    if data.length < left then
      let block ← poke ctx.block num data
      return { ctx with block := block, num := num + data.length }
    else
      let block ← poke ctx.block num (data.take left)
      let digest := compressBlocks ctx.digest block 1
      updateBlocks ⟨digest, ctx.nblocks + 1, block, num⟩ (data.drop left)
  else updateBlocks { ctx with num := num } data

def Digest.bytes (x : Digest) : Bytes :=
  putU32 x.a ++ putU32 x.b ++ putU32 x.c ++ putU32 x.d ++ putU32 x.e ++ putU32 x.f ++ putU32 x.g ++
    putU32 x.h

/-- The mark behind the message and the zeros up to the length words. A block without room for
these words is compressed before. -/
def markEnd (digest : Digest) (block : Bytes) (num : ℕ) : Option (Digest × Bytes) := do
  let block ← poke block num [0x80]
  if num ≤ 64 - 9 then
    let block ← poke block (num + 1) (List.replicate (64 - num - 9) 0)
    return (digest, block)
  else
    let block ← poke block (num + 1) (List.replicate (64 - num - 1) 0)
    let digest := compressBlocks digest block 1
    let block ← poke block 0 (List.replicate (64 - 8) 0)
    return (digest, block)

def finish (ctx : Sm3Ctx) : Option Bytes := do
  let num := ctx.num &&& 0x3f
  let (digest, block) ← markEnd ctx.digest ctx.block num
  let block ← poke block 56 (putU32 (ctx.nblocks >>> 23).toUInt32)
  let block ← poke block 60
    (putU32 ((ctx.nblocks <<< 9) + (UInt64.ofNat num <<< 3)).toUInt32)
  return (compressBlocks digest block 1).bytes

/-- `sm3_digest`, and `sm3_hash::hash_256`. -/
def digest (msg : Bytes) : Option Bytes := do
  let ctx ← update init msg
  finish ctx

/-! The compression function with the loop instead of the renamed registers, and the hash of a
message as one stream of blocks. -/

section Unrolled
variable (ff gg : UInt32 → UInt32 → UInt32 → UInt32) (W : List UInt32)

/-- One turn of the loops that `FULL_UNROLL` replaces. -/
def round (k : UInt32) (j : ℕ) (x : Digest) : Digest :=
  let ss1 := rol32 (rol32 x.a 12 + x.e + k) 7
  let ss2 := ss1 ^^^ rol32 x.a 12
  let tt1 := ff x.a x.b x.c + x.d + ss2 + (W.getD j 0 ^^^ W.getD (j + 4) 0)
  let tt2 := gg x.e x.f x.g + x.h + ss1 + W.getD j 0
  ⟨tt1, x.a, rol32 x.b 9, x.c, p0 tt2, x.e, rol32 x.f 19, x.g⟩

/-- The constants of the rounds are two words, rotated. -/
def constant (j : ℕ) : UInt32 :=
  rol32 (if j < 16 then 0x79cc4519 else 0x7a879d8a) (UInt32.ofNat (j % 32))

def rounds : (turns : ℕ) → (j : ℕ) → Digest → Digest
  | 0, _, x => x
  | turns + 1, j, x => rounds turns (j + 1) (round ff gg W (constant j) j x)

/-- The registers as they are passed to the macro. -/
def view (A B C D E F G H : Register) (x : Registers) : Digest :=
  ⟨x A, x B, x C, x D, x E, x F, x G, x H⟩

theorem tableK_eq {j : ℕ} (h : j < 64) : tableK.getD j 0 = constant j := by
  have hall : ∀ j < 64, tableK.getD j 0 = constant j := by decide
  exact hall j h

/-- Calling the macro with the names moved on by one stands for moving the contents. -/
theorem r_view {A B C D E F G H : Register} (hnames : [A, B, C, D, E, F, G, H].Nodup)
    (s : Registers × ℕ) :
    view H A B C D E F G (r ff gg W A B C D E F G H s).1 =
      round ff gg W (tableK.getD s.2 0) s.2 (view A B C D E F G H s.1) := by
  simp only [List.nodup_cons, List.mem_cons, not_or, List.not_mem_nil, not_false_eq_true,
    and_true] at hnames
  simp [r, round, view, hnames, eq_comm]

theorem rounds_add (m n j : ℕ) (x : Digest) :
    rounds ff gg W (m + n) j x = rounds ff gg W n (j + m) (rounds ff gg W m j x) := by
  induction m generalizing j x with
  | zero => rw [Nat.zero_add]; rfl
  | succ m ih =>
    rw [Nat.succ_add, rounds, rounds, ih]
    congr 1
    omega

/-- After eight turns the names are back where they were. -/
theorem r8_view (s : Registers × ℕ) (hj : s.2 + 8 ≤ 64) :
    view .a .b .c .d .e .f .g .h (r8 ff gg W .a .b .c .d .e .f .g .h s).1 =
      rounds ff gg W 8 s.2 (view .a .b .c .d .e .f .g .h s.1) := by
  have hk : ∀ i, i < 8 → tableK.getD (s.2 + i) 0 = constant (s.2 + i) := by
    intro i hi
    exact tableK_eq (by omega)
  unfold r8
  simp only
  rw [r_view ff gg W (by decide), r_view ff gg W (by decide), r_view ff gg W (by decide),
    r_view ff gg W (by decide), r_view ff gg W (by decide), r_view ff gg W (by decide),
    r_view ff gg W (by decide), r_view ff gg W (by decide)]
  simp only [r, Nat.add_assoc, Nat.reduceAdd]
  rw [hk 1 (by decide), hk 2 (by decide), hk 3 (by decide), hk 4 (by decide), hk 5 (by decide),
    hk 6 (by decide), hk 7 (by decide), tableK_eq (by omega)]
  rfl

theorem iterate_r8 (k : ℕ) (s : Registers × ℕ) (hj : s.2 + 8 * k ≤ 64) :
    view .a .b .c .d .e .f .g .h ((r8 ff gg W .a .b .c .d .e .f .g .h)^[k] s).1 =
        rounds ff gg W (8 * k) s.2 (view .a .b .c .d .e .f .g .h s.1) ∧
      ((r8 ff gg W .a .b .c .d .e .f .g .h)^[k] s).2 = s.2 + 8 * k := by
  induction k generalizing s with
  | zero => exact ⟨rfl, rfl⟩
  | succ k ih =>
    have hcount : (r8 ff gg W .a .b .c .d .e .f .g .h s).2 = s.2 + 8 := rfl
    obtain ⟨hview, hj'⟩ := ih (r8 ff gg W .a .b .c .d .e .f .g .h s) (by rw [hcount]; omega)
    rw [hcount] at hview hj'
    have hadd := rounds_add ff gg W 8 (8 * k) s.2 (view .a .b .c .d .e .f .g .h s.1)
    rw [Function.iterate_succ_apply]
    constructor
    · rw [hview, r8_view ff gg W s (by omega), ← hadd]
      congr 1
      omega
    · rw [hj']
      omega

end Unrolled

/-- The rounds of one block, as two loops. -/
def compression (x : Digest) (data : Bytes) : Digest :=
  let W := schedule data
  let y := rounds ff16 gg16 W 48 16 (rounds ff00 gg00 W 16 0 x)
  ⟨x.a ^^^ y.a, x.b ^^^ y.b, x.c ^^^ y.c, x.d ^^^ y.d, x.e ^^^ y.e, x.f ^^^ y.f, x.g ^^^ y.g,
    x.h ^^^ y.h⟩

lemma iterate_two_six {α : Type} (f g : α → α) (x : α) :
    g (g (g (g (g (g (f (f x))))))) = g^[6] (f^[2] x) := rfl

/-- Eight calls of the macro are the 16 and the 48 turns of the loops. -/
theorem unrolledRounds_view (W : List UInt32) (x : Registers) :
    view .a .b .c .d .e .f .g .h (unrolledRounds W (x, 0)).1 =
      rounds ff16 gg16 W 48 16 (rounds ff00 gg00 W 16 0 (view .a .b .c .d .e .f .g .h x)) := by
  have hcalls : unrolledRounds W (x, 0) = (r8 ff16 gg16 W .a .b .c .d .e .f .g .h)^[6]
      ((r8 ff00 gg00 W .a .b .c .d .e .f .g .h)^[2] (x, 0)) :=
    iterate_two_six (r8 ff00 gg00 W .a .b .c .d .e .f .g .h)
      (r8 ff16 gg16 W .a .b .c .d .e .f .g .h) (x, 0)
  obtain ⟨hfirst, hcount⟩ := iterate_r8 ff00 gg00 W 2 (x, 0) (by simp)
  obtain ⟨hlast, -⟩ := iterate_r8 ff16 gg16 W 6 _ (by rw [hcount])
  rw [hcalls, hlast, hcount, hfirst]

theorem compressBlock_eq (x : Digest) (data : Bytes) :
    compressBlock x data = compression x data := by
  have hview := unrolledRounds_view (schedule data) x.registers
  have hregisters : view .a .b .c .d .e .f .g .h x.registers = x := rfl
  rw [hregisters] at hview
  unfold compression
  simp only [← hview]
  rfl

section Stream

/-- What stands behind a message of `n` bytes: a one, zeros up to the end of a block, and the
number of bits. -/
def padding (n : ℕ) : Bytes :=
  0x80 :: List.replicate ((119 - n % 64) % 64) 0 ++
    (putU32 (UInt32.ofNat (8 * n / 2 ^ 32)) ++ putU32 (UInt32.ofNat (8 * n)))

def hash (msg : Bytes) : Bytes :=
  (absorb 64 compression init.digest (msg ++ padding msg.length)).1.bytes

/-- The context holds a stream of which `count` blocks have gone into the digest. -/
structure Holds (ctx : Sm3Ctx) (s : (Digest × ℕ) × Bytes) : Prop where
  digest_eq : ctx.digest = s.1.1
  nblocks_eq : ctx.nblocks = UInt64.ofNat s.1.2
  num_eq : ctx.num = s.2.length
  block_eq : ∃ unused, ctx.block = s.2 ++ unused ∧ s.2.length + unused.length = 64

theorem compressBlock_funext : compressBlock = compression := by
  funext x data
  exact compressBlock_eq x data

lemma and_63 {n : ℕ} (h : n < 64) : n &&& 0x3f = n := by
  rw [show (0x3f : ℕ) = 2 ^ 6 - 1 from rfl, Nat.and_two_pow_sub_one_eq_mod]
  exact Nat.mod_eq_of_lt h

/-- Without waiting bytes the whole blocks of the piece are taken from where they are. -/
theorem updateBlocks_spec (ctx : Sm3Ctx) {d : Digest} {count : ℕ} (hdigest : ctx.digest = d)
    (hnblocks : ctx.nblocks = UInt64.ofNat count) (hblock : ctx.block.length = 64)
    (data : Bytes) :
    ∃ ctx', updateBlocks ctx data = some ctx' ∧
      Holds ctx' (absorb 64 (counted compression) (d, count) data) := by
  have hlt := absorb_rest_lt (show 0 < 64 by decide) (f := compression) d data
  rw [absorb_counted]
  set rest := (absorb 64 compression d data).2 with hrest
  have hdrop : data.drop (64 * (data.length / 64)) = rest := rfl
  have hcount : ctx.nblocks + UInt64.ofNat (data.length / 64) =
      UInt64.ofNat (count + data.length / 64) := by
    rw [hnblocks, UInt64.ofNat_add]
  have hdigest' : compressBlocks ctx.digest data (data.length / 64) =
      (absorb 64 compression d data).1 := by
    rw [compressBlocks, hdigest, compressBlock_funext]
    rfl
  obtain ⟨unused, hpoke, hsize⟩ := poke_behind [] (show rest.length ≤ ctx.block.length by omega)
  rw [List.nil_append, List.nil_append, List.length_nil] at hpoke
  unfold updateBlocks
  simp only [hdrop, hdigest', hcount]
  by_cases hempty : rest = []
  · refine ⟨⟨_, _, ctx.block, rest.length⟩, by rw [if_neg (by simpa using hempty)]; rfl, rfl, rfl,
      rfl, ctx.block, ?_, ?_⟩
    · rw [hempty, List.nil_append]
    · rw [hempty, List.length_nil]
      omega
  · refine ⟨⟨_, _, rest ++ unused, rest.length⟩, by rw [if_pos hempty, hpoke]; rfl, rfl, rfl, rfl,
      unused, rfl, ?_⟩
    simp only
    omega

theorem update_spec {ctx : Sm3Ctx} {d : Digest} {count : ℕ} {rest : Bytes}
    (hrest : rest.length < 64) (h : Holds ctx ((d, count), rest)) (data : Bytes) :
    ∃ ctx', update ctx data = some ctx' ∧
      Holds ctx' (absorb 64 (counted compression) (d, count) (rest ++ data)) := by
  obtain ⟨hdigest, hnblocks, hnum, unused, hblock, hsize⟩ := h
  simp only at hdigest hnblocks hnum hblock hsize
  have hlength : ctx.block.length = 64 := by
    rw [hblock, List.length_append, hsize]
  unfold update
  rw [hnum, and_63 hrest]
  by_cases hempty : rest = []
  · subst hempty
    exact updateBlocks_spec _ hdigest hnblocks hlength data
  · have hne : rest.length ≠ 0 := fun hzero => hempty (List.length_eq_zero_iff.mp hzero)
    by_cases hshort : data.length < 64 - rest.length
    · -- the piece does not fill the block
      obtain ⟨after, hpoke, hafter⟩ := poke_behind rest (show data.length ≤ unused.length by omega)
      rw [absorb_of_lt (by rw [List.length_append]; omega)]
      refine ⟨⟨ctx.digest, ctx.nblocks, rest ++ data ++ after, rest.length + data.length⟩, ?_,
        hdigest, hnblocks, ?_, after, rfl, ?_⟩
      · simp only [hne, ne_eq, not_false_eq_true, if_true, hshort, hblock, hpoke]
        rfl
      · rw [List.length_append]
      · simp only [List.length_append]
        omega
    · have htake : unused.length = (data.take (64 - rest.length)).length := by
        rw [List.length_take]
        omega
      have hpoke : poke ctx.block rest.length (data.take (64 - rest.length)) =
          some (rest ++ data.take (64 - rest.length)) := by
        have happend := poke_append rest unused [] rfl htake
        rw [List.append_nil, List.append_nil, ← hblock] at happend
        exact happend
      have hfull : (rest ++ data.take (64 - rest.length)).length = 64 := by
        rw [List.length_append, ← htake, hsize]
      have hone : compressBlocks ctx.digest (rest ++ data.take (64 - rest.length)) 1 =
          compression d (rest ++ data.take (64 - rest.length)) := by
        rw [compressBlocks, hdigest, compressBlock_funext, absorbBlocks, absorbBlocks,
          List.take_of_length_le hfull.le]
      have hcount : ctx.nblocks + 1 = UInt64.ofNat (count + 1) := by
        rw [hnblocks, UInt64.ofNat_add]
        rfl
      have hsplit : rest ++ data =
          (rest ++ data.take (64 - rest.length)) ++ data.drop (64 - rest.length) := by
        rw [List.append_assoc, List.take_append_drop]
      rw [hsplit, absorb_block (by decide) hfull, counted]
      obtain ⟨ctx', hstep, hctx'⟩ := updateBlocks_spec
        ⟨_, _, rest ++ data.take (64 - rest.length), rest.length⟩ hone hcount hfull
        (data.drop (64 - rest.length))
      refine ⟨ctx', ?_, hctx'⟩
      simp only [hne, ne_eq, not_false_eq_true, if_true, hshort, if_false, hpoke]
      exact hstep

/-- The two words at the end of a block. -/
lemma poke_lengths {front back high low : Bytes} (hfront : front.length = 56)
    (hback : back.length = 8) (hhigh : high.length = 4) (hlow : low.length = 4) :
    ((poke (front ++ back) 56 high).bind fun block => poke block 60 low) =
      some (front ++ (high ++ low)) := by
  obtain ⟨b₁, b₂, rfl, h₁, h₂⟩ := exists_windows (show back.length = 4 + 4 from hback)
  have hfirst : poke (front ++ (b₁ ++ b₂)) 56 high = some (front ++ high ++ b₂) := by
    rw [← List.append_assoc]
    exact poke_append front b₁ b₂ hfront (h₁.trans hhigh.symm)
  have hsecond : poke (front ++ high ++ b₂) 60 low = some (front ++ high ++ low) := by
    have hbefore : (front ++ high).length = 60 := by
      rw [List.length_append]
      omega
    have happend := poke_append (front ++ high) b₂ [] hbefore (h₂.trans hlow.symm)
    rw [List.append_nil, List.append_nil] at happend
    exact happend
  rw [hfirst, Option.bind_some, hsecond, List.append_assoc]

lemma absorb_one {block : Bytes} (h : block.length = 64) (d : Digest) :
    (absorb 64 compression d block).1 = compression d block := by
  rw [← List.append_nil block, absorb_block (by decide) h, absorb_of_lt (by decide),
    List.append_nil]

/-- The counters of the context give the number of bits, as far as the two words hold it. -/
theorem lengths_eq (count : ℕ) {num : ℕ} (h : num < 64) :
    (UInt64.ofNat count >>> 23).toUInt32 = UInt32.ofNat (8 * (64 * count + num) / 2 ^ 32) ∧
    ((UInt64.ofNat count <<< 9) + (UInt64.ofNat num <<< 3)).toUInt32 =
      UInt32.ofNat (8 * (64 * count + num)) := by
  constructor
  · apply UInt32.toNat_inj.mp
    rw [UInt64.toNat_toUInt32, UInt64.toNat_shiftRight, UInt64.toNat_ofNat', UInt32.toNat_ofNat']
    change (count % 2 ^ 64) >>> 23 % 2 ^ 32 = _
    rw [Nat.shiftRight_eq_div_pow]
    omega
  · apply UInt32.toNat_inj.mp
    rw [UInt64.toNat_toUInt32, UInt64.toNat_add, UInt64.toNat_shiftLeft, UInt64.toNat_shiftLeft,
      UInt64.toNat_ofNat', UInt64.toNat_ofNat', UInt32.toNat_ofNat']
    change ((count % 2 ^ 64) <<< 9 % 2 ^ 64 + (num % 2 ^ 64) <<< 3 % 2 ^ 64) % 2 ^ 64 % 2 ^ 32 = _
    rw [Nat.shiftLeft_eq, Nat.shiftLeft_eq]
    omega

lemma compressBlocks_one (d : Digest) {block : Bytes} (h : block.length = 64) :
    compressBlocks d block 1 = compression d block := by
  rw [compressBlocks, compressBlock_funext, absorbBlocks, absorbBlocks,
    List.take_of_length_le h.le]

theorem markEnd_spec (d : Digest) {rest unused : Bytes} (hrest : rest.length < 64)
    (hsize : rest.length + unused.length = 64) :
    ∃ d' front back, markEnd d (rest ++ unused) rest.length = some (d', front ++ back) ∧
      front.length = 56 ∧ back.length = 8 ∧ ∀ words : Bytes, words.length = 8 →
        (absorb 64 compression d (rest ++ [0x80] ++
          List.replicate ((119 - rest.length) % 64) 0 ++ words)).1 =
        compression d' (front ++ words) := by
  obtain ⟨first, tail, rfl, hfirst, htail⟩ :=
    exists_windows (show unused.length = 1 + (63 - rest.length) by omega)
  have hmark : poke (rest ++ (first ++ tail)) rest.length [0x80] =
      some (rest ++ [0x80] ++ tail) := by
    rw [← List.append_assoc]
    exact poke_append rest first tail rfl hfirst
  have hafter : (rest ++ [0x80]).length = rest.length + 1 := by
    rw [List.length_append, List.length_singleton]
  unfold markEnd
  rw [hmark, Option.bind_eq_bind, Option.bind_some]
  by_cases hroom : rest.length ≤ 64 - 9
  · obtain ⟨gap, back, rfl, hgap, hback⟩ :=
      exists_windows (show tail.length = (64 - rest.length - 9) + 8 by omega)
    have hzeros : poke (rest ++ [0x80] ++ (gap ++ back)) (rest.length + 1)
        (List.replicate (64 - rest.length - 9) 0) =
        some (rest ++ [0x80] ++ List.replicate (64 - rest.length - 9) 0 ++ back) := by
      rw [← List.append_assoc]
      exact poke_append (rest ++ [0x80]) gap back hafter (by rw [hgap, List.length_replicate])
    have hfront : (rest ++ [0x80] ++ List.replicate (64 - rest.length - 9) (0 : UInt8)).length =
        56 := by
      rw [List.length_append, hafter, List.length_replicate]
      omega
    refine ⟨d, _, back, by rw [if_pos hroom, hzeros]; rfl, hfront, hback, ?_⟩
    intro words hwords
    rw [show (119 - rest.length) % 64 = 64 - rest.length - 9 by omega]
    exact absorb_one (by rw [List.length_append, hfront, hwords]) d
  · have hzeros : poke (rest ++ [0x80] ++ tail) (rest.length + 1)
        (List.replicate (64 - rest.length - 1) 0) =
        some (rest ++ [0x80] ++ List.replicate (64 - rest.length - 1) 0) := by
      have happend := poke_append (rest ++ [0x80]) tail [] hafter
        (show tail.length = (List.replicate (64 - rest.length - 1) (0 : UInt8)).length by
          rw [List.length_replicate]; omega)
      rw [List.append_nil, List.append_nil] at happend
      exact happend
    set block := rest ++ [0x80] ++ List.replicate (64 - rest.length - 1) (0 : UInt8) with hblock
    have hfull : block.length = 64 := by
      rw [hblock, List.length_append, hafter, List.length_replicate]
      omega
    obtain ⟨old, back, hcut, hold, hback⟩ := exists_windows (show block.length = 56 + 8 from hfull)
    have hclear : poke block 0 (List.replicate (64 - 8) 0) =
        some (List.replicate 56 0 ++ back) := by
      have happend := poke_append [] old back rfl
        (show old.length = (List.replicate (64 - 8) (0 : UInt8)).length by
          rw [List.length_replicate, hold])
      rw [List.nil_append, List.nil_append, ← hcut] at happend
      exact happend
    refine ⟨compression d block, List.replicate 56 0, back, ?_, List.length_replicate, hback, ?_⟩
    · rw [if_neg hroom, hzeros, Option.bind_some, compressBlocks_one d hfull]
      simp only [hclear]
      rfl
    · intro words hwords
      have hsplit : rest ++ [0x80] ++ List.replicate ((119 - rest.length) % 64) 0 ++ words =
          block ++ (List.replicate 56 0 ++ words) := by
        rw [show (119 - rest.length) % 64 = (64 - rest.length - 1) + 56 by omega,
          List.replicate_add, hblock]
        simp only [List.append_assoc]
      rw [hsplit, absorb_block (by decide) hfull]
      exact absorb_one (by rw [List.length_append, List.length_replicate, hwords]) _

theorem finish_spec {ctx : Sm3Ctx} {d : Digest} {count : ℕ} {rest : Bytes}
    (hrest : rest.length < 64) (h : Holds ctx ((d, count), rest)) :
    finish ctx = some
      (absorb 64 compression d (rest ++ padding (64 * count + rest.length))).1.bytes := by
  obtain ⟨hdigest, hnblocks, hnum, unused, hblock, hsize⟩ := h
  simp only at hdigest hnblocks hnum hblock hsize
  obtain ⟨hhigh, hlow⟩ := lengths_eq count hrest
  obtain ⟨d', front, back, hmark, hfront, hback, habsorb⟩ := markEnd_spec d hrest hsize
  have hmod : (64 * count + rest.length) % 64 = rest.length := by omega
  have hwords := poke_lengths hfront hback
    (putU32_length (UInt32.ofNat (8 * (64 * count + rest.length) / 2 ^ 32)))
    (putU32_length (UInt32.ofNat (8 * (64 * count + rest.length))))
  have hstream := habsorb (putU32 (UInt32.ofNat (8 * (64 * count + rest.length) / 2 ^ 32)) ++
    putU32 (UInt32.ofNat (8 * (64 * count + rest.length)))) rfl
  have hpadding : rest ++ padding (64 * count + rest.length) = rest ++ [0x80] ++
      List.replicate ((119 - rest.length) % 64) 0 ++
      (putU32 (UInt32.ofNat (8 * (64 * count + rest.length) / 2 ^ 32)) ++
        putU32 (UInt32.ofNat (8 * (64 * count + rest.length)))) := by
    rw [padding, hmod, List.append_assoc, List.append_assoc, List.singleton_append,
      List.cons_append]
  unfold finish
  simp only [hnum, and_63 hrest, hblock, hdigest, hmark, hnblocks, hhigh, hlow]
  rw [Option.bind_eq_bind, Option.bind_some]
  simp only [Option.bind_eq_bind]
  rw [← Option.bind_assoc, hwords, Option.bind_some, hpadding, hstream, compressBlocks_one]
  · rfl
  · rw [List.length_append, hfront]
    rfl

theorem updates_finish_spec (pieces : List Bytes) :
    (do
      let ctx ← pieces.foldlM update init
      finish ctx) = some (hash pieces.flatten) := by
  have hinit : Holds init ((init.digest, 0), []) :=
    ⟨rfl, rfl, rfl, List.replicate 64 0, rfl, rfl⟩
  obtain ⟨ctx, hrun, hctx⟩ := foldlM_simulates (show 0 < 64 by decide)
    (f := counted compression) (R := Holds)
    (fun ctx s rest data hrest h => update_spec hrest h data) pieces (by decide) hinit
  rw [hrun, Option.bind_eq_bind, Option.bind_some]
  rw [List.nil_append, absorb_counted] at hctx
  have hlt := absorb_rest_lt (show 0 < 64 by decide) (f := compression) init.digest pieces.flatten
  have htotal : 64 * (0 + pieces.flatten.length / 64) +
      (absorb 64 compression init.digest pieces.flatten).2.length = pieces.flatten.length := by
    rw [absorb, List.length_drop]
    omega
  rw [finish_spec hlt hctx, htotal, hash, absorb_append (by decide) init.digest]

example : digest [0x61, 0x62, 0x63] = some
    [0x66, 0xc7, 0xf0, 0xf4, 0x62, 0xee, 0xed, 0xd9, 0xd1, 0xf2, 0xd4, 0x6b, 0xdc, 0x10, 0xe4, 0xe2,
      0x41, 0x67, 0xc4, 0x87, 0x5c, 0xf2, 0xf7, 0xa2, 0x29, 0x7d, 0xa0, 0x2b, 0x8f, 0x4b, 0xa8,
      0xe0] := by
  decide +kernel

end Stream

end PrivacyComputing.Sm3
