import Mathlib.Algebra.Ring.Nat
import Mathlib.Data.List.Basic
import Mathlib.Data.List.Perm.Basic
import Mathlib.Tactic.Common
import PrivacyComputing.BigEndian
import PrivacyComputing.CryptoPack

/-! The block cipher of the `gmssl` pack, `sm4_enc.c` and `sm4_setkey.c`: rounds by table look-up,
and the two key schedules, over source-heavy Feistel networks in general. -/
namespace PrivacyComputing.FeistelNetwork

section Network
variable {W K : Type} (op : W → W → W) (F : K → List W → W)

/-- The oldest word of the state leaves, combined with a function of all the others, and comes back
as the newest one. -/
def round (k : K) : List W → List W
  | [] => []
  | x :: xs => xs ++ [op x (F k xs)]

def run (ks : List K) (s : List W) : List W := ks.foldl (fun s k => round op F k s) s

variable {op F}

theorem round_length (k : K) (s : List W) : (round op F k s).length = s.length := by
  cases s with
  | nil => rfl
  | cons x xs => rw [round, List.length_append, List.length_singleton, List.length_cons]

theorem run_length (ks : List K) (s : List W) : (run op F ks s).length = s.length := by
  induction ks generalizing s with
  | nil => rfl
  | cons k ks ih =>
    change (run op F ks (round op F k s)).length = s.length
    rw [ih, round_length]

/-- A round function that does not see the order of the words is undone by the same round on the
words in reverse. -/
theorem round_reverse (hop : ∀ a b, op (op a b) b = a) (hF : ∀ k xs, F k xs.reverse = F k xs)
    (k : K) (s : List W) : round op F k (round op F k s).reverse = s.reverse := by
  cases s with
  | nil => rfl
  | cons x xs =>
    rw [round, List.reverse_append, List.reverse_singleton, List.singleton_append, round, hF, hop,
      List.reverse_cons]

/-- The keys in reverse order undo a run. -/
theorem run_reverse (hop : ∀ a b, op (op a b) b = a) (hF : ∀ k xs, F k xs.reverse = F k xs)
    (ks : List K) (s : List W) : run op F ks.reverse (run op F ks s).reverse = s.reverse := by
  induction ks generalizing s with
  | nil => rfl
  | cons k ks ih =>
    have htail : run op F ks.reverse (run op F (k :: ks) s).reverse =
        (round op F k s).reverse := ih (round op F k s)
    rw [List.reverse_cons, run, List.foldl_append]
    change round op F k (run op F ks.reverse (run op F (k :: ks) s).reverse) = s.reverse
    rw [htail, round_reverse hop hF]

end Network

end PrivacyComputing.FeistelNetwork

namespace PrivacyComputing.Sm4
open BigEndian FeistelNetwork

def sm4S : List UInt8 :=
  [0xd6, 0x90, 0xe9, 0xfe, 0xcc, 0xe1, 0x3d, 0xb7, 0x16, 0xb6, 0x14, 0xc2, 0x28, 0xfb, 0x2c, 0x05,
    0x2b, 0x67, 0x9a, 0x76, 0x2a, 0xbe, 0x04, 0xc3, 0xaa, 0x44, 0x13, 0x26, 0x49, 0x86, 0x06, 0x99,
    0x9c, 0x42, 0x50, 0xf4, 0x91, 0xef, 0x98, 0x7a, 0x33, 0x54, 0x0b, 0x43, 0xed, 0xcf, 0xac, 0x62,
    0xe4, 0xb3, 0x1c, 0xa9, 0xc9, 0x08, 0xe8, 0x95, 0x80, 0xdf, 0x94, 0xfa, 0x75, 0x8f, 0x3f, 0xa6,
    0x47, 0x07, 0xa7, 0xfc, 0xf3, 0x73, 0x17, 0xba, 0x83, 0x59, 0x3c, 0x19, 0xe6, 0x85, 0x4f, 0xa8,
    0x68, 0x6b, 0x81, 0xb2, 0x71, 0x64, 0xda, 0x8b, 0xf8, 0xeb, 0x0f, 0x4b, 0x70, 0x56, 0x9d, 0x35,
    0x1e, 0x24, 0x0e, 0x5e, 0x63, 0x58, 0xd1, 0xa2, 0x25, 0x22, 0x7c, 0x3b, 0x01, 0x21, 0x78, 0x87,
    0xd4, 0x00, 0x46, 0x57, 0x9f, 0xd3, 0x27, 0x52, 0x4c, 0x36, 0x02, 0xe7, 0xa0, 0xc4, 0xc8, 0x9e,
    0xea, 0xbf, 0x8a, 0xd2, 0x40, 0xc7, 0x38, 0xb5, 0xa3, 0xf7, 0xf2, 0xce, 0xf9, 0x61, 0x15, 0xa1,
    0xe0, 0xae, 0x5d, 0xa4, 0x9b, 0x34, 0x1a, 0x55, 0xad, 0x93, 0x32, 0x30, 0xf5, 0x8c, 0xb1, 0xe3,
    0x1d, 0xf6, 0xe2, 0x2e, 0x82, 0x66, 0xca, 0x60, 0xc0, 0x29, 0x23, 0xab, 0x0d, 0x53, 0x4e, 0x6f,
    0xd5, 0xdb, 0x37, 0x45, 0xde, 0xfd, 0x8e, 0x2f, 0x03, 0xff, 0x6a, 0x72, 0x6d, 0x6c, 0x5b, 0x51,
    0x8d, 0x1b, 0xaf, 0x92, 0xbb, 0xdd, 0xbc, 0x7f, 0x11, 0xd9, 0x5c, 0x41, 0x1f, 0x10, 0x5a, 0xd8,
    0x0a, 0xc1, 0x31, 0x88, 0xa5, 0xcd, 0x7b, 0xbd, 0x2d, 0x74, 0xd0, 0x12, 0xb8, 0xe5, 0xb4, 0xb0,
    0x89, 0x69, 0x97, 0x4a, 0x0c, 0x96, 0x77, 0x7e, 0x65, 0xb9, 0xf1, 0x09, 0xc5, 0x6e, 0xc6, 0x84,
    0x18, 0xf0, 0x7d, 0xec, 0x3a, 0xdc, 0x4d, 0x20, 0x79, 0xee, 0x5f, 0x3e, 0xd7, 0xcb, 0x39, 0x48]

def sm4T : List UInt32 :=
  [0x8ed55b5b, 0xd0924242, 0x4deaa7a7, 0x06fdfbfb, 0xfccf3333, 0x65e28787, 0xc93df4f4, 0x6bb5dede,
    0x4e165858, 0x6eb4dada, 0x44145050, 0xcac10b0b, 0x8828a0a0, 0x17f8efef, 0x9c2cb0b0, 0x11051414,
    0x872bacac, 0xfb669d9d, 0xf2986a6a, 0xae77d9d9, 0x822aa8a8, 0x46bcfafa, 0x14041010, 0xcfc00f0f,
    0x02a8aaaa, 0x54451111, 0x5f134c4c, 0xbe269898, 0x6d482525, 0x9e841a1a, 0x1e061818, 0xfd9b6666,
    0xec9e7272, 0x4a430909, 0x10514141, 0x24f7d3d3, 0xd5934646, 0x53ecbfbf, 0xf89a6262, 0x927be9e9,
    0xff33cccc, 0x04555151, 0x270b2c2c, 0x4f420d0d, 0x59eeb7b7, 0xf3cc3f3f, 0x1caeb2b2, 0xea638989,
    0x74e79393, 0x7fb1cece, 0x6c1c7070, 0x0daba6a6, 0xedca2727, 0x28082020, 0x48eba3a3, 0xc1975656,
    0x80820202, 0xa3dc7f7f, 0xc4965252, 0x12f9ebeb, 0xa174d5d5, 0xb38d3e3e, 0xc33ffcfc, 0x3ea49a9a,
    0x5b461d1d, 0x1b071c1c, 0x3ba59e9e, 0x0cfff3f3, 0x3ff0cfcf, 0xbf72cdcd, 0x4b175c5c, 0x52b8eaea,
    0x8f810e0e, 0x3d586565, 0xcc3cf0f0, 0x7d196464, 0x7ee59b9b, 0x91871616, 0x734e3d3d, 0x08aaa2a2,
    0xc869a1a1, 0xc76aadad, 0x85830606, 0x7ab0caca, 0xb570c5c5, 0xf4659191, 0xb2d96b6b, 0xa7892e2e,
    0x18fbe3e3, 0x47e8afaf, 0x330f3c3c, 0x674a2d2d, 0xb071c1c1, 0x0e575959, 0xe99f7676, 0xe135d4d4,
    0x661e7878, 0xb4249090, 0x360e3838, 0x265f7979, 0xef628d8d, 0x38596161, 0x95d24747, 0x2aa08a8a,
    0xb1259494, 0xaa228888, 0x8c7df1f1, 0xd73becec, 0x05010404, 0xa5218484, 0x9879e1e1, 0x9b851e1e,
    0x84d75353, 0x00000000, 0x5e471919, 0x0b565d5d, 0xe39d7e7e, 0x9fd04f4f, 0xbb279c9c, 0x1a534949,
    0x7c4d3131, 0xee36d8d8, 0x0a020808, 0x7be49f9f, 0x20a28282, 0xd4c71313, 0xe8cb2323, 0xe69c7a7a,
    0x42e9abab, 0x43bdfefe, 0xa2882a2a, 0x9ad14b4b, 0x40410101, 0xdbc41f1f, 0xd838e0e0, 0x61b7d6d6,
    0x2fa18e8e, 0x2bf4dfdf, 0x3af1cbcb, 0xf6cd3b3b, 0x1dfae7e7, 0xe5608585, 0x41155454, 0x25a38686,
    0x60e38383, 0x16acbaba, 0x295c7575, 0x34a69292, 0xf7996e6e, 0xe434d0d0, 0x721a6868, 0x01545555,
    0x19afb6b6, 0xdf914e4e, 0xfa32c8c8, 0xf030c0c0, 0x21f6d7d7, 0xbc8e3232, 0x75b3c6c6, 0x6fe08f8f,
    0x691d7474, 0x2ef5dbdb, 0x6ae18b8b, 0x962eb8b8, 0x8a800a0a, 0xfe679999, 0xe2c92b2b, 0xe0618181,
    0xc0c30303, 0x8d29a4a4, 0xaf238c8c, 0x07a9aeae, 0x390d3434, 0x1f524d4d, 0x764f3939, 0xd36ebdbd,
    0x81d65757, 0xb7d86f6f, 0xeb37dcdc, 0x51441515, 0xa6dd7b7b, 0x09fef7f7, 0xb68c3a3a, 0x932fbcbc,
    0x0f030c0c, 0x03fcffff, 0xc26ba9a9, 0xba73c9c9, 0xd96cb5b5, 0xdc6db1b1, 0x375a6d6d, 0x15504545,
    0xb98f3636, 0x771b6c6c, 0x13adbebe, 0xda904a4a, 0x57b9eeee, 0xa9de7777, 0x4cbef2f2, 0x837efdfd,
    0x55114444, 0xbdda6767, 0x2c5d7171, 0x45400505, 0x631f7c7c, 0x50104040, 0x325b6969, 0xb8db6363,
    0x220a2828, 0xc5c20707, 0xf531c4c4, 0xa88a2222, 0x31a79696, 0xf9ce3737, 0x977aeded, 0x49bff6f6,
    0x992db4b4, 0xa475d1d1, 0x90d34343, 0x5a124848, 0x58bae2e2, 0x71e69797, 0x64b6d2d2, 0x70b2c2c2,
    0xad8b2626, 0xcd68a5a5, 0xcb955e5e, 0x624b2929, 0x3c0c3030, 0xce945a5a, 0xab76dddd, 0x867ff9f9,
    0xf1649595, 0x5dbbe6e6, 0x35f2c7c7, 0x2d092424, 0xd1c61717, 0xd66fb9b9, 0xdec51b1b, 0x94861212,
    0x78186060, 0x30f3c3c3, 0x897cf5f5, 0x5cefb3b3, 0xd23ae8e8, 0xacdf7373, 0x794c3535, 0xa0208080,
    0x9d78e5e5, 0x56edbbbb, 0x235e7d7d, 0xc63ef8f8, 0x8bd45f5f, 0xe7c82f2f, 0xdd39e4e4, 0x68492121]

def fk : List UInt32 := [0xa3b1bac6, 0x56aa3350, 0x677d9197, 0xb27022dc]

def ck : List UInt32 :=
  [0x00070e15, 0x1c232a31, 0x383f464d, 0x545b6269, 0x70777e85, 0x8c939aa1, 0xa8afb6bd, 0xc4cbd2d9,
    0xe0e7eef5, 0xfc030a11, 0x181f262d, 0x343b4249, 0x50575e65, 0x6c737a81, 0x888f969d, 0xa4abb2b9,
    0xc0c7ced5, 0xdce3eaf1, 0xf8ff060d, 0x141b2229, 0x30373e45, 0x4c535a61, 0x686f767d, 0x848b9299,
    0xa0a7aeb5, 0xbcc3cad1, 0xd8dfe6ed, 0xf4fb0209, 0x10171e25, 0x2c333a41, 0x484f565d, 0x646b7279]

/-- `S32`. -/
def s32 (a : UInt32) : UInt32 :=
  (sm4S.getD (a >>> 24).toNat 0).toUInt32 <<< 24 ^^^
    (sm4S.getD (a >>> 16 &&& 0xff).toNat 0).toUInt32 <<< 16 ^^^
    (sm4S.getD (a >>> 8 &&& 0xff).toNat 0).toUInt32 <<< 8 ^^^
    (sm4S.getD (a &&& 0xff).toNat 0).toUInt32

/-- `L32`. -/
def l32 (x : UInt32) : UInt32 := x ^^^ rol32 x 2 ^^^ rol32 x 10 ^^^ rol32 x 18 ^^^ rol32 x 24

/-- `L32_`. -/
def l32Key (x : UInt32) : UInt32 := x ^^^ rol32 x 13 ^^^ rol32 x 23

/-- The local variables `x0` to `x4`. The line of `ROUNDS` after a round names each of them one
place further on, so a round hands them back in that order. -/
structure Registers where
  (x0 x1 x2 x3 x4 : UInt32)
  deriving DecidableEq, Repr

def roundSbox (k : UInt32) (x : Registers) : Registers :=
  let x4 := x.x1 ^^^ x.x2 ^^^ x.x3 ^^^ k
  let x4 := s32 x4
  let x4 := x.x0 ^^^ l32 x4
  ⟨x.x1, x.x2, x.x3, x4, x.x0⟩

def roundTbox (k : UInt32) (x : Registers) : Registers :=
  let x4 := x.x1 ^^^ x.x2 ^^^ x.x3 ^^^ k
  let t0 := rol32 (sm4T.getD x4.toUInt8.toNat 0) 8
  let x4 := x4 >>> 8
  let x0 := x.x0 ^^^ t0
  let t0 := rol32 (sm4T.getD x4.toUInt8.toNat 0) 16
  let x4 := x4 >>> 8
  let x0 := x0 ^^^ t0
  let t0 := rol32 (sm4T.getD x4.toUInt8.toNat 0) 24
  let x4 := x4 >>> 8
  let x0 := x0 ^^^ t0
  let t1 := sm4T.getD x4.toNat 0
  let x4 := x0 ^^^ t1
  ⟨x.x1, x.x2, x.x3, x4, x0⟩

/-- `ENC_ROUND` and `DEC_ROUND`, which differ in where they put the new word. -/
def roundKey (c : UInt32) (x : Registers) : Registers :=
  let x4 := x.x1 ^^^ x.x2 ^^^ x.x3 ^^^ c
  let x4 := s32 x4
  let x4 := x.x0 ^^^ l32Key x4
  ⟨x.x1, x.x2, x.x3, x4, x.x0⟩

/-- `SM4_KEY`: one key for each round. -/
structure Sm4Key where
  rk : List UInt32
  size : rk.length = 32

def loadBlock (block : Bytes) : Registers :=
  ⟨getU32 block, getU32 (block.drop 4), getU32 (block.drop 8), getU32 (block.drop 12), 0⟩

/-- The block after the last line of `ROUNDS`, whose new word is `x0`. -/
def storeBlock (x : Registers) : Bytes := putU32 x.x3 ++ putU32 x.x2 ++ putU32 x.x1 ++ putU32 x.x0

/-- `sm4_encrypt` with the rounds that `ROUND` names. -/
def encryptWith (round : UInt32 → Registers → Registers) (key : Sm4Key) (block : Bytes) : Bytes :=
  storeBlock (key.rk.foldl (fun x k => round k x) (loadBlock block))

def sm4Encrypt : Sm4Key → Bytes → Bytes := encryptWith roundTbox

section KeySchedule
variable (place : ℕ → ℕ)

/-- One line of `ROUNDS` in a key schedule: the new word goes to `rk[place(i)]`. -/
def scheduleRound (st : Registers × List UInt32) (ci : UInt32 × ℕ) : Registers × List UInt32 :=
  let x := roundKey ci.1 st.1
  (x, st.2.set (place ci.2) x.x3)

def scheduleRegisters (userKey : Bytes) : Registers :=
  ⟨getU32 userKey ^^^ fk.getD 0 0, getU32 (userKey.drop 4) ^^^ fk.getD 1 0,
    getU32 (userKey.drop 8) ^^^ fk.getD 2 0, getU32 (userKey.drop 12) ^^^ fk.getD 3 0, 0⟩

def scheduleRounds (userKey : Bytes) (rk : List UInt32) : List UInt32 :=
  (ck.zipIdx.foldl (scheduleRound place) (scheduleRegisters userKey, rk)).2

theorem scheduleRounds_length (userKey : Bytes) (rk : List UInt32) :
    (scheduleRounds place userKey rk).length = rk.length := by
  have hrun : ∀ (cis : List (UInt32 × ℕ)) (st : Registers × List UInt32),
      (cis.foldl (scheduleRound place) st).2.length = st.2.length := by
    intro cis
    induction cis with
    | nil => intro st; rfl
    | cons ci cis ih =>
      intro st
      rw [List.foldl_cons, ih, scheduleRound, List.length_set]
  exact hrun _ _

end KeySchedule

/-- The key is a variable of the caller: what it held before is written over. -/
def setEncryptKey (key : Sm4Key) (userKey : Bytes) : Sm4Key :=
  ⟨scheduleRounds (fun i => i) userKey key.rk, by rw [scheduleRounds_length, key.size]⟩

def setDecryptKey (key : Sm4Key) (userKey : Bytes) : Sm4Key :=
  ⟨scheduleRounds (fun i => 31 - i) userKey key.rk, by rw [scheduleRounds_length, key.size]⟩

section Schedules

/-- The words of a key schedule in the order in which they are made. -/
def keyWords : List UInt32 → Registers → List UInt32
  | [], _ => []
  | c :: cs, x => (roundKey c x).x3 :: keyWords cs (roundKey c x)

lemma take_set_self {rk : List UInt32} {i : ℕ} (h : i < rk.length) (w : UInt32) :
    (rk.set i w).take (i + 1) = rk.take i ++ [w] := by
  have hlen : (rk.take i).length = i := by
    rw [List.length_take]
    omega
  rw [List.set_eq_take_append_cons_drop, if_pos h, ← List.singleton_append, ← List.append_assoc,
    List.take_left' (by rw [List.length_append, hlen, List.length_singleton])]

lemma drop_set_self {rk : List UInt32} {i : ℕ} (h : i < rk.length) (w : UInt32) :
    (rk.set i w).drop i = w :: rk.drop (i + 1) := by
  have hlen : (rk.take i).length = i := by
    rw [List.length_take]
    omega
  rw [List.set_eq_take_append_cons_drop, if_pos h, List.drop_left' hlen]

theorem schedule_upwards (cs : List UInt32) (i : ℕ) (x : Registers) (rk : List UInt32)
    (h : i + cs.length ≤ rk.length) :
    ((cs.zipIdx i).foldl (scheduleRound fun i => i) (x, rk)).2 =
      rk.take i ++ keyWords cs x ++ rk.drop (i + cs.length) := by
  induction cs generalizing i x rk with
  | nil => simp [keyWords]
  | cons c cs ih =>
    rw [List.length_cons] at h
    rw [List.zipIdx_cons, List.foldl_cons]
    change ((cs.zipIdx (i + 1)).foldl _ (roundKey c x, rk.set i (roundKey c x).x3)).2 = _
    rw [ih _ _ _ (by rw [List.length_set]; omega), take_set_self (by omega),
      List.drop_set_of_lt (by omega), keyWords, List.length_cons, List.append_assoc (rk.take i),
      List.singleton_append, Nat.add_assoc, Nat.add_comm 1]

theorem schedule_downwards (cs : List UInt32) (i : ℕ) (x : Registers) (rk : List UInt32)
    (hsize : rk.length = 32) (h : i + cs.length ≤ 32) :
    ((cs.zipIdx i).foldl (scheduleRound fun i => 31 - i) (x, rk)).2 =
      rk.take (32 - i - cs.length) ++ (keyWords cs x).reverse ++ rk.drop (32 - i) := by
  induction cs generalizing i x rk with
  | nil => simp [keyWords]
  | cons c cs ih =>
    rw [List.length_cons] at h
    have hplace : 32 - (i + 1) = 31 - i := by omega
    have hnext : 31 - i + 1 = 32 - i := by omega
    have hfirst : 31 - i - cs.length = 32 - i - (cs.length + 1) := by omega
    rw [List.zipIdx_cons, List.foldl_cons]
    change ((cs.zipIdx (i + 1)).foldl _ (roundKey c x, rk.set (31 - i) (roundKey c x).x3)).2 = _
    rw [ih _ _ _ (by rw [List.length_set, hsize]) (by omega), hplace,
      drop_set_self (by omega), List.take_set_of_le (by omega), hnext, hfirst, keyWords,
      List.length_cons, List.reverse_cons, ← List.append_assoc, List.append_assoc _ [_],
      List.singleton_append]

theorem setEncryptKey_rk (key : Sm4Key) (userKey : Bytes) :
    (setEncryptKey key userKey).rk = keyWords ck (scheduleRegisters userKey) := by
  have hsize : key.rk.length = ck.length := key.size
  simp only [setEncryptKey]
  rw [scheduleRounds, schedule_upwards _ _ _ _ (by rw [hsize, Nat.zero_add]),
    List.take_zero, List.nil_append, Nat.zero_add, List.drop_eq_nil_of_le (le_of_eq hsize),
    List.append_nil]

theorem setDecryptKey_rk (key : Sm4Key) (userKey : Bytes) :
    (setDecryptKey key userKey).rk = (keyWords ck (scheduleRegisters userKey)).reverse := by
  have hcount : 32 - 0 - ck.length = 0 := rfl
  simp only [setDecryptKey]
  rw [scheduleRounds, schedule_downwards _ _ _ _ key.size (by decide), hcount,
    List.take_zero, List.nil_append, List.drop_eq_nil_of_le (by rw [key.size]), List.append_nil]

end Schedules

section Rounds

theorem sm4T_eq : sm4T = sm4S.map fun b : UInt8 => l32 (b.toUInt32 <<< 24) := by
  decide +kernel

theorem sm4T_getD (i : ℕ) (hi : i < 256) :
    sm4T.getD i 0 = l32 ((sm4S.getD i 0).toUInt32 <<< 24) := by
  have hlength : sm4S.length = 256 := by decide +kernel
  have hsize : i < sm4S.length := hlength ▸ hi
  rw [sm4T_eq, List.getD_eq_getElem?_getD, List.getD_eq_getElem?_getD, List.getElem?_map,
    List.getElem?_eq_getElem hsize]
  rfl

theorem l32_xor (x y : UInt32) : l32 (x ^^^ y) = l32 x ^^^ l32 y := by
  simp only [l32, rol32_xor]
  ac_rfl

theorem l32_rol32 (x n : UInt32) : l32 (rol32 x n) = rol32 (l32 x) n := by
  simp only [l32, rol32_xor, rol32_rol32, UInt32.add_comm]

/-- A look-up, rotated to the place of its byte. -/
theorem rol32_sm4T {i : ℕ} (hi : i < 256) :
    rol32 (sm4T.getD i 0) 8 = l32 (sm4S.getD i 0).toUInt32 ∧
      rol32 (sm4T.getD i 0) 16 = l32 ((sm4S.getD i 0).toUInt32 <<< 8) ∧
      rol32 (sm4T.getD i 0) 24 = l32 ((sm4S.getD i 0).toUInt32 <<< 16) := by
  rw [sm4T_getD i hi, ← l32_rol32, ← l32_rol32, ← l32_rol32,
    byte_shiftLeft _ (by decide) (by decide), byte_shiftLeft _ (by decide) (by decide),
    byte_shiftLeft _ (by decide) (by decide), rol32_rol32, rol32_rol32, rol32_rol32]
  refine ⟨?_, ?_, ?_⟩
  · exact congrArg l32 ((rol32_add_32 _ 0).trans (rol32_zero _))
  · exact congrArg l32 (rol32_add_32 _ 8)
  · exact congrArg l32 (rol32_add_32 _ 16)

lemma shiftRight_toNat (v : UInt32) {k : UInt32} (hk : k.toNat < 32) :
    (v >>> k).toNat = v.toNat / 2 ^ k.toNat := by
  rw [UInt32.toNat_shiftRight, Nat.mod_eq_of_lt hk, Nat.shiftRight_eq_div_pow]

lemma and_0xff_toNat (v : UInt32) : (v &&& 0xff).toNat = v.toNat % 256 := by
  rw [UInt32.toNat_and]
  exact Nat.and_two_pow_sub_one_eq_mod v.toNat 8

/-- The bytes of a word through the table, each at its place. -/
theorem l32_s32 (v : UInt32) :
    l32 (s32 v) = rol32 (sm4T.getD (v.toNat % 256) 0) 8 ^^^
      rol32 (sm4T.getD (v.toNat / 2 ^ 8 % 256) 0) 16 ^^^
      rol32 (sm4T.getD (v.toNat / 2 ^ 16 % 256) 0) 24 ^^^ sm4T.getD (v.toNat / 2 ^ 24) 0 := by
  have hv := v.toNat_lt
  have hbyte (n : ℕ) : n % 256 < 256 := Nat.mod_lt n (by decide)
  obtain ⟨hlow, -, -⟩ := rol32_sm4T (hbyte v.toNat)
  obtain ⟨-, hsecond, -⟩ := rol32_sm4T (hbyte (v.toNat / 2 ^ 8))
  obtain ⟨-, -, hthird⟩ := rol32_sm4T (hbyte (v.toNat / 2 ^ 16))
  have h24 : (v >>> 24).toNat = v.toNat / 2 ^ 24 := shiftRight_toNat v (by decide)
  have h16 : (v >>> 16).toNat = v.toNat / 2 ^ 16 := shiftRight_toNat v (by decide)
  have h8 : (v >>> 8).toNat = v.toNat / 2 ^ 8 := shiftRight_toNat v (by decide)
  rw [hlow, hsecond, hthird, sm4T_getD _ (by omega), ← l32_xor, ← l32_xor, ← l32_xor, s32,
    and_0xff_toNat, and_0xff_toNat, and_0xff_toNat, h24, h16, h8]
  generalize (sm4S.getD (v.toNat % 256) 0).toUInt32 = a
  generalize (sm4S.getD (v.toNat / 2 ^ 8 % 256) 0).toUInt32 <<< 8 = b
  generalize (sm4S.getD (v.toNat / 2 ^ 16 % 256) 0).toUInt32 <<< 16 = c
  generalize (sm4S.getD (v.toNat / 2 ^ 24) 0).toUInt32 <<< 24 = d
  congr 1
  ac_rfl

/-- The round by table makes the same new word as the round by definition. -/
theorem roundTbox_x3 (k : UInt32) (x : Registers) : (roundTbox k x).x3 = (roundSbox k x).x3 := by
  set v := x.x1 ^^^ x.x2 ^^^ x.x3 ^^^ k with hv
  have hbyte0 : v.toUInt8.toNat = v.toNat % 256 := UInt32.toNat_toUInt8 v
  have hbyte1 : (v >>> 8).toUInt8.toNat = v.toNat / 2 ^ 8 % 256 := by
    rw [UInt32.toNat_toUInt8, shiftRight_toNat v (by decide)]
    rfl
  have hbyte2 : (v >>> 8 >>> 8).toUInt8.toNat = v.toNat / 2 ^ 16 % 256 := by
    rw [UInt32.toNat_toUInt8, shiftRight_toNat _ (by decide), shiftRight_toNat v (by decide),
      Nat.div_div_eq_div_mul]
    rfl
  have hbyte3 : (v >>> 8 >>> 8 >>> 8).toNat = v.toNat / 2 ^ 24 := by
    rw [shiftRight_toNat _ (by decide), shiftRight_toNat _ (by decide),
      shiftRight_toNat v (by decide), Nat.div_div_eq_div_mul, Nat.div_div_eq_div_mul]
    rfl
  change x.x0 ^^^ rol32 (sm4T.getD v.toUInt8.toNat 0) 8 ^^^
    rol32 (sm4T.getD (v >>> 8).toUInt8.toNat 0) 16 ^^^
    rol32 (sm4T.getD (v >>> 8 >>> 8).toUInt8.toNat 0) 24 ^^^
    sm4T.getD (v >>> 8 >>> 8 >>> 8).toNat 0 = x.x0 ^^^ l32 (s32 v)
  rw [hbyte0, hbyte1, hbyte2, hbyte3, l32_s32]
  ac_rfl

end Rounds

section Block

/-- The four words that a round reads. -/
def window (x : Registers) : List UInt32 := [x.x0, x.x1, x.x2, x.x3]

/-- What a round puts on top of the oldest word. -/
def mix (k : UInt32) (xs : List UInt32) : UInt32 := l32 (s32 (xs.foldr (· ^^^ ·) k))

lemma mix_reverse (k : UInt32) (xs : List UInt32) : mix k xs.reverse = mix k xs := by
  have hcomm : LeftCommutative (fun a b : UInt32 => a ^^^ b) := ⟨fun a b c => by ac_rfl⟩
  rw [mix, mix, (List.reverse_perm xs).foldr_eq k]

lemma xor_cancel (a b : UInt32) : a ^^^ b ^^^ b = a := by
  rw [UInt32.xor_assoc, UInt32.xor_self, UInt32.xor_zero]

theorem window_roundSbox (k : UInt32) (x : Registers) :
    window (roundSbox k x) = round (· ^^^ ·) mix k (window x) := by
  have hsum : x.x1 ^^^ x.x2 ^^^ x.x3 ^^^ k = x.x1 ^^^ (x.x2 ^^^ (x.x3 ^^^ k)) := by ac_rfl
  rw [roundSbox, hsum]
  rfl

theorem window_roundTbox (k : UInt32) (x : Registers) :
    window (roundTbox k x) = round (· ^^^ ·) mix k (window x) := by
  rw [← window_roundSbox, window, roundTbox_x3]
  rfl

/-- The registers follow the network. -/
theorem window_rounds {round : UInt32 → Registers → Registers}
    (h : ∀ k x, window (round k x) = FeistelNetwork.round (· ^^^ ·) mix k (window x))
    (ks : List UInt32) (x : Registers) :
    window (ks.foldl (fun x k => round k x) x) = run (· ^^^ ·) mix ks (window x) := by
  induction ks generalizing x with
  | nil => rfl
  | cons k ks ih =>
    rw [List.foldl_cons, ih, h]
    rfl

theorem storeBlock_eq (x : Registers) : storeBlock x = (window x).reverse.flatMap putU32 := by
  simp [storeBlock, window]

theorem window_loadBlock_store {ws : List UInt32} (h : ws.length = 4) :
    window (loadBlock (ws.flatMap putU32)) = ws := by
  match ws, h with
  | [a, b, c, d], _ =>
    have hdrop (v : UInt32) (rest : Bytes) (n : ℕ) :
        (putU32 v ++ rest).drop (n + 4) = rest.drop n := rfl
    simp only [List.flatMap_cons, List.flatMap_nil, window, loadBlock]
    rw [hdrop a _ 0, hdrop a _ 4, hdrop b _ 0, hdrop a _ 8, hdrop b _ 4, hdrop c _ 0]
    simp only [List.drop_zero, getU32_putU32]

theorem store_window_loadBlock {block : Bytes} (h : block.length = 16) :
    (window (loadBlock block)).flatMap putU32 = block := by
  have hstep (n : ℕ) : (block.drop n).take 4 ++ block.drop (n + 4) = block.drop n := by
    rw [← List.drop_drop, List.take_append_drop]
  have hword (n : ℕ) (hn : n + 4 ≤ 16) : putU32 (getU32 (block.drop n)) = (block.drop n).take 4 :=
    putU32_getU32 (by rw [List.length_drop]; omega)
  have hfirst : putU32 (getU32 block) = block.take 4 := hword 0 (by decide)
  have hend : block.drop 16 = [] := List.drop_eq_nil_of_le (le_of_eq h)
  simp only [window, loadBlock, List.flatMap_cons, List.flatMap_nil]
  rw [hfirst, hword 4 (by decide), hword 8 (by decide), hword 12 (by decide), ← hend, hstep 12,
    hstep 8, hstep 4, List.take_append_drop]

theorem encryptWith_eq {round : UInt32 → Registers → Registers}
    (h : ∀ k x, window (round k x) = FeistelNetwork.round (· ^^^ ·) mix k (window x))
    (key : Sm4Key) (block : Bytes) :
    encryptWith round key block =
      (run (· ^^^ ·) mix key.rk (window (loadBlock block))).reverse.flatMap putU32 := by
  rw [encryptWith, storeBlock_eq, window_rounds h]

/-- The round keys in reverse order undo an encryption. -/
theorem sm4Encrypt_reverse {key key' : Sm4Key} (hkeys : key'.rk = key.rk.reverse) {block : Bytes}
    (h : block.length = 16) : sm4Encrypt key' (sm4Encrypt key block) = block := by
  have hsize : (run (· ^^^ ·) mix key.rk (window (loadBlock block))).reverse.length = 4 := by
    rw [List.length_reverse, run_length]
    rfl
  rw [sm4Encrypt, encryptWith_eq window_roundTbox, encryptWith_eq window_roundTbox,
    window_loadBlock_store hsize, hkeys, run_reverse xor_cancel mix_reverse, List.reverse_reverse,
    store_window_loadBlock h]

/-- A block comes back through the other key schedule, whichever of the two came first. -/
theorem sm4Encrypt_schedules (key key' : Sm4Key) (userKey : Bytes) {block : Bytes}
    (h : block.length = 16) :
    sm4Encrypt (setDecryptKey key' userKey) (sm4Encrypt (setEncryptKey key userKey) block) = block ∧
      sm4Encrypt (setEncryptKey key userKey) (sm4Encrypt (setDecryptKey key' userKey) block) =
        block := by
  constructor
  · apply sm4Encrypt_reverse _ h
    rw [setDecryptKey_rk, setEncryptKey_rk]
  · apply sm4Encrypt_reverse _ h
    rw [setDecryptKey_rk, setEncryptKey_rk, List.reverse_reverse]

theorem sm4Encrypt_schedules_zeros :
    sm4Encrypt (setDecryptKey ⟨List.replicate 32 0, rfl⟩ (List.replicate 16 7))
        (sm4Encrypt (setEncryptKey ⟨List.replicate 32 0, rfl⟩ (List.replicate 16 7))
          (List.replicate 16 0)) =
          List.replicate 16 0 ∧
      sm4Encrypt (setEncryptKey ⟨List.replicate 32 0, rfl⟩ (List.replicate 16 7))
        (sm4Encrypt (setDecryptKey ⟨List.replicate 32 0, rfl⟩ (List.replicate 16 7))
          (List.replicate 16 0)) =
          List.replicate 16 0 :=
  sm4Encrypt_schedules _ _ (List.replicate 16 7) rfl

/-- The rounds by table and the rounds by definition are one cipher. -/
theorem sm4Encrypt_eq_sbox (key : Sm4Key) (block : Bytes) :
    sm4Encrypt key block = encryptWith roundSbox key block := by
  rw [sm4Encrypt, encryptWith_eq window_roundTbox, encryptWith_eq window_roundSbox]

example : sm4Encrypt (setEncryptKey ⟨List.replicate 32 0, rfl⟩
      [0x01, 0x23, 0x45, 0x67, 0x89, 0xab, 0xcd, 0xef, 0xfe, 0xdc, 0xba, 0x98, 0x76, 0x54, 0x32,
        0x10])
      [0x01, 0x23, 0x45, 0x67, 0x89, 0xab, 0xcd, 0xef, 0xfe, 0xdc, 0xba, 0x98, 0x76, 0x54, 0x32,
        0x10] =
    [0x68, 0x1e, 0xdf, 0x34, 0xd2, 0x06, 0x96, 0x5e, 0x86, 0xb3, 0xe9, 0x4f, 0x53, 0x6e, 0x42,
      0x46] := by
  decide +kernel

end Block

end PrivacyComputing.Sm4
