import Mathlib.Data.List.GetD
import PrivacyComputing.BlockStream
import PrivacyComputing.MemoryLayout
import PrivacyComputing.Sm4Gcm

/-! The block chaining of `sm4_modes.c` with its padding, over a whole text and over a text that
comes in pieces. -/
namespace PrivacyComputing.Sm4
open BlockStream BufferWindow

def sm4CbcEncrypt (key : Sm4Key) : (iv data : Bytes) → (nblocks : ℕ) → Bytes
  | _, _, 0 => []
  | iv, data, nblocks + 1 =>
    let out := sm4Encrypt key (memxor (data.take 16) iv)
    out ++ sm4CbcEncrypt key out (data.drop 16) nblocks

def sm4CbcDecrypt (key : Sm4Key) : (iv data : Bytes) → (nblocks : ℕ) → Bytes
  | _, _, 0 => []
  | iv, data, nblocks + 1 =>
    let out := memxor (sm4Encrypt key (data.take 16)) iv
    out ++ sm4CbcDecrypt key (data.take 16) (data.drop 16) nblocks

def sm4CbcPaddingEncrypt (key : Sm4Key) (iv data : Bytes) : Bytes :=
  let rem := data.length % 16
  let padding := 16 - data.length % 16
  let block := data.drop (data.length - rem) ++ List.replicate padding (UInt8.ofNat padding)
  let out := if data.length / 16 ≠ 0 then sm4CbcEncrypt key iv data (data.length / 16) else []
  let iv := if data.length / 16 ≠ 0 then (out.drop (data.length - rem - 16)).take 16 else iv
  out ++ sm4CbcEncrypt key iv block 1

/-- The error is the number returned: 0 for an empty text, and -1. -/
def sm4CbcPaddingDecrypt (key : Sm4Key) (iv data : Bytes) : Except ℤ Bytes :=
  if data.length = 0 then .error 0
  else if data.length % 16 ≠ 0 ∨ data.length < 16 then .error (-1)
  else
    let out := if 16 < data.length then sm4CbcDecrypt key iv data (data.length / 16 - 1) else []
    let iv := if 16 < data.length then (data.drop (data.length - 32)).take 16 else iv
    let block := sm4CbcDecrypt key iv (data.drop (data.length - 16)) 1
    let padding := (block.getD 15 0).toNat
    if padding < 1 ∨ 16 < padding then .error (-1) else .ok (out ++ block.take (16 - padding))

/-- `SM4_CBC_CTX`. -/
structure Sm4CbcCtx where
  sm4Key : Sm4Key
  iv : Bytes
  block : Bytes
  blockNbytes : ℕ

section Stream
variable (stack : Sm4Key) (key iv : Bytes) (ctx : Sm4CbcCtx) (data : Bytes)

def sm4CbcEncryptInit : Sm4CbcCtx := ⟨setEncryptKey stack key, iv, List.replicate 16 0, 0⟩

/-- The end of `sm4_cbc_encrypt_update`, when no bytes wait in the block buffer. -/
def encryptBlocks : Option (Sm4CbcCtx × Bytes) := do
  let nblocks := data.length / 16
  let len := nblocks * 16
  let out := if 16 ≤ data.length then sm4CbcEncrypt ctx.sm4Key ctx.iv data nblocks else []
  let iv := if 16 ≤ data.length then (out.drop (len - 16)).take 16 else ctx.iv
  let data := if 16 ≤ data.length then data.drop len else data
  let block ← (if data.length ≠ 0 then poke ctx.block 0 data else some ctx.block)
  return (⟨ctx.sm4Key, iv, block, data.length⟩, out)

/-- `none` is the result -1, or would be a write outside the block buffer. -/
def sm4CbcEncryptUpdate : Option (Sm4CbcCtx × Bytes) := do
  if 16 ≤ ctx.blockNbytes then none
  else if ctx.blockNbytes ≠ 0 then
    let left := 16 - ctx.blockNbytes
    if data.length < left then
      let block ← poke ctx.block ctx.blockNbytes data
      return (⟨ctx.sm4Key, ctx.iv, block, ctx.blockNbytes + data.length⟩, [])
    else
      let block ← poke ctx.block ctx.blockNbytes (data.take left)
      let out := sm4CbcEncrypt ctx.sm4Key ctx.iv block 1
      let (ctx, rest) ← encryptBlocks ⟨ctx.sm4Key, out, block, ctx.blockNbytes⟩ (data.drop left)
      return (ctx, out ++ rest)
  else encryptBlocks ctx data

def sm4CbcEncryptFinish : Option Bytes :=
  if 16 ≤ ctx.blockNbytes then none
  else some (sm4CbcPaddingEncrypt ctx.sm4Key ctx.iv (ctx.block.take ctx.blockNbytes))

def sm4CbcDecryptInit : Sm4CbcCtx := ⟨setDecryptKey stack key, iv, List.replicate 16 0, 0⟩

/-- The end of `sm4_cbc_decrypt_update`. It keeps up to a whole block, the last one may be
padded. -/
def decryptBlocks : Option (Sm4CbcCtx × Bytes) := do
  let nblocks := (data.length - 1) / 16
  let len := nblocks * 16
  let out := if 16 < data.length then sm4CbcDecrypt ctx.sm4Key ctx.iv data nblocks else []
  let iv := if 16 < data.length then (data.drop (len - 16)).take 16 else ctx.iv
  let data := if 16 < data.length then data.drop len else data
  let block ← poke ctx.block 0 data
  return (⟨ctx.sm4Key, iv, block, data.length⟩, out)

def sm4CbcDecryptUpdate : Option (Sm4CbcCtx × Bytes) := do
  if 16 < ctx.blockNbytes then none
  else if ctx.blockNbytes < 16 then
    let left := 16 - ctx.blockNbytes
    if data.length ≤ left then
      let block ← poke ctx.block ctx.blockNbytes data
      return (⟨ctx.sm4Key, ctx.iv, block, ctx.blockNbytes + data.length⟩, [])
    else
      let block ← poke ctx.block ctx.blockNbytes (data.take left)
      let out := sm4CbcDecrypt ctx.sm4Key ctx.iv block 1
      let (ctx, rest) ← decryptBlocks ⟨ctx.sm4Key, block, block, ctx.blockNbytes⟩ (data.drop left)
      return (ctx, out ++ rest)
  else decryptBlocks ctx data

def sm4CbcDecryptFinish : Option Bytes :=
  if ctx.blockNbytes ≠ 16 then none
  else (sm4CbcPaddingDecrypt ctx.sm4Key ctx.iv ctx.block).toOption

end Stream

/-- An update that writes behind what was written before. -/
def appendTo (update : Sm4CbcCtx → Bytes → Option (Sm4CbcCtx × Bytes)) (c : Sm4CbcCtx × Bytes)
    (data : Bytes) : Option (Sm4CbcCtx × Bytes) := do
  let (ctx, out) ← update c.1 data
  return (ctx, c.2 ++ out)

/-- A text encrypted in pieces. -/
def encryptPieces (stack : Sm4Key) (key iv : Bytes) (pieces : List Bytes) : Option Bytes := do
  let (ctx, out) ← pieces.foldlM (appendTo sm4CbcEncryptUpdate) (sm4CbcEncryptInit stack key iv, [])
  let last ← sm4CbcEncryptFinish ctx
  return out ++ last

/-- A text decrypted in pieces. -/
def decryptPieces (stack : Sm4Key) (key iv : Bytes) (pieces : List Bytes) : Option Bytes := do
  let (ctx, out) ← pieces.foldlM (appendTo sm4CbcDecryptUpdate) (sm4CbcDecryptInit stack key iv, [])
  let last ← sm4CbcDecryptFinish ctx
  return out ++ last

/-! One block after the other as a stream, with the block before and what was written. -/

def chain (key : Sm4Key) (s : Bytes × Bytes) (block : Bytes) : Bytes × Bytes :=
  (sm4Encrypt key (memxor block s.1), s.2 ++ sm4Encrypt key (memxor block s.1))

def unchain (key : Sm4Key) (s : Bytes × Bytes) (block : Bytes) : Bytes × Bytes :=
  (block, s.2 ++ memxor (sm4Encrypt key block) s.1)

/-- The block before the next one. -/
def ivAfter (iv cipher : Bytes) : Bytes :=
  if cipher = [] then iv else cipher.drop (cipher.length - 16)

section Blocks
variable {key : Sm4Key} {iv out data : Bytes}

theorem ivAfter_append {block cipher : Bytes} (hblock : block.length = 16)
    (h : cipher = [] ∨ 16 ≤ cipher.length) :
    ivAfter iv (block ++ cipher) = ivAfter block cipher := by
  have hne : block ++ cipher ≠ [] := by
    intro hnil
    simp [List.append_eq_nil_iff.mp hnil] at hblock
  rw [ivAfter, if_neg hne, ivAfter]
  rcases h with rfl | hlong
  · rw [List.append_nil, hblock, if_pos rfl]
    rfl
  · have hcipher : cipher ≠ [] := by
      rintro rfl
      simp at hlong
    rw [if_neg hcipher, List.length_append, hblock,
      show 16 + cipher.length - 16 = block.length + (cipher.length - 16) by omega,
      List.drop_append, List.drop_eq_nil_of_le (by omega), List.nil_append]
    congr 1
    omega

theorem sm4CbcEncrypt_length (key : Sm4Key) (iv data : Bytes) (k : ℕ) :
    (sm4CbcEncrypt key iv data k).length = 16 * k := by
  induction k generalizing iv data with
  | zero => rfl
  | succ k ih =>
    rw [sm4CbcEncrypt, List.length_append, ih, sm4Encrypt_length]
    omega

theorem absorbBlocks_chain (k : ℕ) :
    absorbBlocks 16 (chain key) k (iv, out) data =
      (ivAfter iv (sm4CbcEncrypt key iv data k), out ++ sm4CbcEncrypt key iv data k) := by
  induction k generalizing iv out data with
  | zero =>
    rw [sm4CbcEncrypt, List.append_nil]
    rfl
  | succ k ih =>
    have htail (block : Bytes) : sm4CbcEncrypt key block (data.drop 16) k = [] ∨
        16 ≤ (sm4CbcEncrypt key block (data.drop 16) k).length := by
      rw [sm4CbcEncrypt_length]
      cases k with
      | zero => exact .inl rfl
      | succ k => exact .inr (by omega)
    rw [absorbBlocks, chain, ih, sm4CbcEncrypt, ivAfter_append (sm4Encrypt_length _ _) (htail _),
      List.append_assoc]

theorem absorbBlocks_unchain {k : ℕ} (h : 16 * k ≤ data.length) :
    absorbBlocks 16 (unchain key) k (iv, out) data =
      (ivAfter iv (data.take (16 * k)), out ++ sm4CbcDecrypt key iv data k) := by
  induction k generalizing iv out data with
  | zero =>
    rw [sm4CbcDecrypt, List.append_nil]
    rfl
  | succ k ih =>
    have hdrop : 16 * k ≤ (data.drop 16).length := by
      rw [List.length_drop]
      omega
    have hblock : (data.take 16).length = 16 := by
      rw [List.length_take]
      omega
    have htail : (data.drop 16).take (16 * k) = [] ∨
        16 ≤ ((data.drop 16).take (16 * k)).length := by
      cases k with
      | zero => exact .inl rfl
      | succ k =>
        rw [List.length_take]
        exact .inr (by omega)
    rw [absorbBlocks, unchain, ih hdrop, sm4CbcDecrypt, Nat.mul_succ, Nat.add_comm,
      List.take_add, ivAfter_append hblock htail, List.append_assoc]

end Blocks

/-- The context and the text written so far, at a point of the stream: the block before, the text,
and the bytes that wait. -/
def CbcHolds (key : Sm4Key) (c : Sm4CbcCtx × Bytes) (p : (Bytes × Bytes) × Bytes) : Prop :=
  c.1.sm4Key = key ∧ (c.1.iv, c.2) = p.1 ∧ c.1.blockNbytes = p.2.length ∧
    ∃ unused, c.1.block = p.2 ++ unused ∧ p.2.length + unused.length = 16

section Update
variable {key : Sm4Key} {ctx : Sm4CbcCtx} {out rest : Bytes}

theorem encryptBlocks_spec (hkey : ctx.sm4Key = key) (hblock : ctx.block.length = 16)
    (out data : Bytes) :
    ∃ ctx' more, encryptBlocks ctx data = some (ctx', more) ∧
      CbcHolds key (ctx', out ++ more) (absorb 16 (chain key) (ctx.iv, out) data) := by
  have hlt := absorb_rest_lt (show 0 < 16 by decide) (f := chain key) (ctx.iv, out) data
  have hdata : (if 16 ≤ data.length then data.drop (data.length / 16 * 16) else data) =
      (absorb 16 (chain key) (ctx.iv, out) data).2 := by
    rw [absorb, Nat.mul_comm]
    split
    · rfl
    · rw [Nat.div_eq_of_lt (by omega)]
      rfl
  have hout : (if 16 ≤ data.length then sm4CbcEncrypt key ctx.iv data (data.length / 16) else []) =
      sm4CbcEncrypt key ctx.iv data (data.length / 16) := by
    split
    · rfl
    · rw [Nat.div_eq_of_lt (by omega)]
      rfl
  have hiv : (if 16 ≤ data.length then
      ((sm4CbcEncrypt key ctx.iv data (data.length / 16)).drop (data.length / 16 * 16 - 16)).take 16
      else ctx.iv) = ivAfter ctx.iv (sm4CbcEncrypt key ctx.iv data (data.length / 16)) := by
    have hlength := sm4CbcEncrypt_length key ctx.iv data (data.length / 16)
    split
    · have hne : sm4CbcEncrypt key ctx.iv data (data.length / 16) ≠ [] := by
        intro hnil
        rw [hnil, List.length_nil] at hlength
        omega
      rw [ivAfter, if_neg hne, hlength, Nat.mul_comm,
        List.take_of_length_le (by rw [List.length_drop, hlength]; omega)]
    · rw [Nat.div_eq_of_lt (by omega)]
      rfl
  set waiting := (absorb 16 (chain key) (ctx.iv, out) data).2 with hwaiting
  obtain ⟨block, hpoke, unused, hunused, hsize⟩ : ∃ block,
      (if waiting.length ≠ 0 then poke ctx.block 0 waiting else some ctx.block) = some block ∧
        ∃ unused, block = waiting ++ unused ∧ waiting.length + unused.length = 16 := by
    by_cases hempty : waiting.length = 0
    · refine ⟨ctx.block, by rw [if_neg (by simpa using hempty)], ctx.block, ?_, by omega⟩
      rw [List.length_eq_zero_iff.mp hempty, List.nil_append]
    · obtain ⟨unused, hpoke, hsize⟩ :=
        poke_behind [] (show waiting.length ≤ ctx.block.length by omega)
      refine ⟨waiting ++ unused, ?_, unused, rfl, by omega⟩
      rw [if_pos hempty]
      exact hpoke
  refine ⟨⟨key, _, block, waiting.length⟩, sm4CbcEncrypt key ctx.iv data (data.length / 16), ?_,
    rfl, (absorbBlocks_chain _).symm, rfl, unused, hunused, hsize⟩
  unfold encryptBlocks
  simp only [hkey, hout, hiv, hdata, hpoke]
  rfl

theorem decryptBlocks_spec (hkey : ctx.sm4Key = key) (hblock : ctx.block.length = 16)
    (out data : Bytes) :
    ∃ ctx' more, decryptBlocks ctx data = some (ctx', more) ∧
      CbcHolds key (ctx', out ++ more) (absorbBehind 16 (unchain key) 1 (ctx.iv, out) data) := by
  have hlt := absorbBehind_rest_lt (show 0 < 16 by decide) (w := 1) (f := unchain key)
    (ctx.iv, out) data
  have hle : 16 * ((data.length - 1) / 16) ≤ data.length := by omega
  have hdata : (if 16 < data.length then data.drop ((data.length - 1) / 16 * 16) else data) =
      (absorbBehind 16 (unchain key) 1 (ctx.iv, out) data).2 := by
    rw [absorbBehind, Nat.mul_comm]
    split
    · rfl
    · rw [Nat.div_eq_of_lt (by omega)]
      rfl
  have hout : (if 16 < data.length then sm4CbcDecrypt key ctx.iv data ((data.length - 1) / 16)
      else []) = sm4CbcDecrypt key ctx.iv data ((data.length - 1) / 16) := by
    split
    · rfl
    · rw [Nat.div_eq_of_lt (by omega)]
      rfl
  have hiv : (if 16 < data.length then (data.drop ((data.length - 1) / 16 * 16 - 16)).take 16
      else ctx.iv) = ivAfter ctx.iv (data.take (16 * ((data.length - 1) / 16))) := by
    have hlength : (data.take (16 * ((data.length - 1) / 16))).length =
        16 * ((data.length - 1) / 16) := List.length_take_of_le hle
    split
    · have hne : data.take (16 * ((data.length - 1) / 16)) ≠ [] := by
        intro hnil
        rw [hnil, List.length_nil] at hlength
        omega
      rw [ivAfter, if_neg hne, hlength, List.drop_take, Nat.mul_comm]
      congr 1
      omega
    · rw [Nat.div_eq_of_lt (by omega)]
      rfl
  set waiting := (absorbBehind 16 (unchain key) 1 (ctx.iv, out) data).2 with hwaiting
  obtain ⟨unused, hpoke, hsize⟩ := poke_behind [] (show waiting.length ≤ ctx.block.length by omega)
  rw [List.nil_append, List.nil_append, List.length_nil] at hpoke
  rw [hblock] at hsize
  refine ⟨⟨key, _, waiting ++ unused, waiting.length⟩,
    sm4CbcDecrypt key ctx.iv data ((data.length - 1) / 16), ?_, rfl,
    (absorbBlocks_unchain hle).symm, rfl, unused, rfl, hsize⟩
  unfold decryptBlocks
  simp only [hkey, hout, hiv, hdata, hpoke]
  rfl

theorem CbcHolds.block_length {s : Bytes × Bytes} (h : CbcHolds key (ctx, out) (s, rest)) :
    ctx.block.length = 16 := by
  obtain ⟨-, -, -, unused, hblock, hsize⟩ := h
  simp only at hblock hsize
  rw [hblock, List.length_append, hsize]

/-- Bytes that fit into the block wait behind those that wait already. -/
theorem CbcHolds.wait {s : Bytes × Bytes} (h : CbcHolds key (ctx, out) (s, rest)) {data : Bytes}
    (hfit : data.length ≤ 16 - rest.length) :
    ∃ block, poke ctx.block rest.length data = some block ∧
      CbcHolds key (⟨ctx.sm4Key, ctx.iv, block, rest.length + data.length⟩, out)
        (s, rest ++ data) := by
  obtain ⟨hkey, hs, -, unused, hblock, hsize⟩ := h
  simp only at hkey hs hblock hsize
  obtain ⟨after, hpoke, hafter⟩ := poke_behind rest (show data.length ≤ unused.length by omega)
  refine ⟨rest ++ data ++ after, by rw [hblock, hpoke], hkey, hs, (List.length_append).symm, after,
    rfl, ?_⟩
  simp only [List.length_append]
  omega

/-- With as many bytes as are missing the block is full. -/
theorem CbcHolds.fill {s : Bytes × Bytes} (hrest : rest.length ≤ 16)
    (h : CbcHolds key (ctx, out) (s, rest)) {data : Bytes}
    (hfull : 16 - rest.length ≤ data.length) :
    poke ctx.block rest.length (data.take (16 - rest.length)) =
        some (rest ++ data.take (16 - rest.length)) ∧
      (rest ++ data.take (16 - rest.length)).length = 16 := by
  have htake : (data.take (16 - rest.length)).length = 16 - rest.length :=
    List.length_take_of_le hfull
  obtain ⟨block, hpoke, -, -, -, unused, hblock, hsize⟩ := h.wait htake.le
  have hlength : (rest ++ data.take (16 - rest.length)).length = 16 := by
    rw [List.length_append, htake]
    omega
  simp only at hblock hsize
  obtain rfl : unused = [] := List.length_eq_zero_iff.mp (by omega)
  rw [List.append_nil] at hblock
  exact ⟨by rw [hpoke, hblock], hlength⟩

theorem sm4CbcEncryptUpdate_spec {s : Bytes × Bytes} (hrest : rest.length < 16)
    (h : CbcHolds key (ctx, out) (s, rest)) (data : Bytes) :
    ∃ c', appendTo sm4CbcEncryptUpdate (ctx, out) data = some c' ∧
      CbcHolds key c' (absorb 16 (chain key) s (rest ++ data)) := by
  have hkey : ctx.sm4Key = key := h.1
  obtain rfl : (ctx.iv, out) = s := h.2.1
  have hnbytes : ctx.blockNbytes = rest.length := h.2.2.1
  have hroom : ¬ 16 ≤ rest.length := by omega
  rw [appendTo]
  unfold sm4CbcEncryptUpdate
  simp only [hnbytes, hroom, if_false]
  by_cases hempty : rest = []
  · subst hempty
    obtain ⟨ctx', more, hstep, hctx'⟩ := encryptBlocks_spec hkey h.block_length out data
    exact ⟨_, by simp only [List.length_nil, ne_eq, not_true, if_false, hstep]; rfl, hctx'⟩
  · have hne : rest.length ≠ 0 := fun hzero => hempty (List.length_eq_zero_iff.mp hzero)
    by_cases hshort : data.length < 16 - rest.length
    · -- the piece does not fill the block
      obtain ⟨block, hpoke, hwait⟩ := h.wait hshort.le
      rw [absorb_of_lt (by rw [List.length_append]; omega)]
      refine ⟨_, ?_, hwait⟩
      simp only [hne, ne_eq, not_false_eq_true, if_true, hshort, hpoke]
      exact congrArg (fun more => some (_, more)) (List.append_nil out)
    · obtain ⟨hpoke, hfull⟩ := h.fill hrest.le (Nat.le_of_not_lt hshort)
      set block := rest ++ data.take (16 - rest.length) with hblock'
      have hone : sm4CbcEncrypt key ctx.iv block 1 = sm4Encrypt key (memxor block ctx.iv) := by
        rw [sm4CbcEncrypt, sm4CbcEncrypt, List.append_nil, List.take_of_length_le hfull.le]
      have hsplit : rest ++ data = block ++ data.drop (16 - rest.length) := by
        rw [hblock', List.append_assoc, List.take_append_drop]
      rw [hsplit, absorb_block (by decide) hfull, chain]
      obtain ⟨ctx', more, hstep, hctx'⟩ := encryptBlocks_spec
        (show (⟨key, sm4Encrypt key (memxor block ctx.iv), block, rest.length⟩ :
          Sm4CbcCtx).sm4Key = key from rfl) hfull (out ++ sm4Encrypt key (memxor block ctx.iv))
        (data.drop (16 - rest.length))
      refine ⟨(ctx', out ++ (sm4Encrypt key (memxor block ctx.iv) ++ more)), ?_, ?_⟩
      · simp only [hne, ne_eq, not_false_eq_true, if_true, hshort, if_false, hpoke, hkey, hone,
          Option.bind_eq_bind, Option.bind_some, hstep]
        rfl
      · rw [← List.append_assoc]
        exact hctx'

/-- What an update keeps of the bytes that wait. A whole block of them is not decrypted, and what
comes next is written over it. -/
def stays (waiting : Bytes) : Bytes := if waiting.length = 16 then [] else waiting

theorem sm4CbcDecryptUpdate_spec {s : Bytes × Bytes} (hrest : rest.length ≤ 16)
    (h : CbcHolds key (ctx, out) (s, rest)) (data : Bytes) :
    ∃ c', appendTo sm4CbcDecryptUpdate (ctx, out) data = some c' ∧
      CbcHolds key c' (absorbBehind 16 (unchain key) 1 s (stays rest ++ data)) := by
  have hkey : ctx.sm4Key = key := h.1
  obtain rfl : (ctx.iv, out) = s := h.2.1
  have hnbytes : ctx.blockNbytes = rest.length := h.2.2.1
  have hroom : ¬ 16 < rest.length := by omega
  rw [appendTo]
  unfold sm4CbcDecryptUpdate
  simp only [hnbytes, hroom, if_false]
  by_cases hwhole : rest.length = 16
  · rw [stays, if_pos hwhole, List.nil_append]
    obtain ⟨ctx', more, hstep, hctx'⟩ := decryptBlocks_spec hkey h.block_length out data
    exact ⟨_, by simp only [hwhole, lt_irrefl, if_false, hstep]; rfl, hctx'⟩
  · have hlt : rest.length < 16 := by omega
    rw [stays, if_neg hwhole]
    by_cases hshort : data.length ≤ 16 - rest.length
    · -- the piece does not go beyond the block
      obtain ⟨block, hpoke, hwait⟩ := h.wait hshort
      rw [absorbBehind_of_lt (by rw [List.length_append]; omega)]
      refine ⟨_, ?_, hwait⟩
      simp only [hlt, if_true, hshort, hpoke]
      exact congrArg (fun more => some (_, more)) (List.append_nil out)
    · obtain ⟨hpoke, hfull⟩ := h.fill hrest (Nat.le_of_not_le hshort)
      set block := rest ++ data.take (16 - rest.length) with hblock'
      have hone : sm4CbcDecrypt key ctx.iv block 1 = memxor (sm4Encrypt key block) ctx.iv := by
        rw [sm4CbcDecrypt, sm4CbcDecrypt, List.append_nil, List.take_of_length_le hfull.le]
      have hsplit : rest ++ data = block ++ data.drop (16 - rest.length) := by
        rw [hblock', List.append_assoc, List.take_append_drop]
      rw [hsplit, absorbBehind_block (by decide) hfull (by rw [List.length_drop]; omega), unchain]
      obtain ⟨ctx', more, hstep, hctx'⟩ := decryptBlocks_spec
        (show (⟨key, block, block, rest.length⟩ : Sm4CbcCtx).sm4Key = key from rfl) hfull
        (out ++ memxor (sm4Encrypt key block) ctx.iv) (data.drop (16 - rest.length))
      refine ⟨(ctx', out ++ (memxor (sm4Encrypt key block) ctx.iv ++ more)), ?_, ?_⟩
      · simp only [hlt, if_true, hshort, if_false, hpoke, hkey, hone, Option.bind_eq_bind,
          Option.bind_some, hstep]
        rfl
      · rw [← List.append_assoc]
        exact hctx'

end Update

section Padding
variable {key : Sm4Key} {iv : Bytes}

/-- The last block, with as many bytes behind the text as their value says. -/
def padded (rest : Bytes) : Bytes :=
  rest ++ List.replicate (16 - rest.length) (UInt8.ofNat (16 - rest.length))

theorem padded_length {rest : Bytes} (h : rest.length < 16) : (padded rest).length = 16 := by
  rw [padded, List.length_append, List.length_replicate]
  omega

theorem sm4CbcPaddingEncrypt_eq (data : Bytes) :
    sm4CbcPaddingEncrypt key iv data =
      sm4CbcEncrypt key iv data (data.length / 16) ++
        sm4Encrypt key (memxor (padded (data.drop (16 * (data.length / 16))))
          (ivAfter iv (sm4CbcEncrypt key iv data (data.length / 16)))) := by
  have hlength := sm4CbcEncrypt_length key iv data (data.length / 16)
  have hrest : (data.drop (16 * (data.length / 16))).length < 16 := by
    rw [List.length_drop]
    omega
  have hblock : data.drop (data.length - data.length % 16) ++
      List.replicate (16 - data.length % 16) (UInt8.ofNat (16 - data.length % 16)) =
        padded (data.drop (16 * (data.length / 16))) := by
    have hmod : (data.drop (16 * (data.length / 16))).length = data.length % 16 := by
      rw [List.length_drop]
      omega
    rw [padded, hmod, show data.length - data.length % 16 = 16 * (data.length / 16) by omega]
  have hone (iv' : Bytes) {block : Bytes} (h : block.length = 16) :
      sm4CbcEncrypt key iv' block 1 = sm4Encrypt key (memxor block iv') := by
    rw [sm4CbcEncrypt, sm4CbcEncrypt, List.append_nil, List.take_of_length_le h.le]
  rw [sm4CbcPaddingEncrypt]
  simp only [hblock, hone _ (padded_length hrest)]
  by_cases hzero : data.length / 16 = 0
  · rw [hzero]
    rfl
  · have hne : sm4CbcEncrypt key iv data (data.length / 16) ≠ [] := by
      intro hnil
      rw [hnil, List.length_nil] at hlength
      omega
    rw [if_pos hzero, if_pos hzero, ivAfter, if_neg hne, hlength,
      show data.length - data.length % 16 - 16 = 16 * (data.length / 16) - 16 by omega,
      List.take_of_length_le (by rw [List.length_drop, hlength]; omega)]

theorem sm4CbcPaddingEncrypt_length (key : Sm4Key) (iv data : Bytes) :
    (sm4CbcPaddingEncrypt key iv data).length = 16 * (data.length / 16) + 16 := by
  rw [sm4CbcPaddingEncrypt_eq, List.length_append, sm4CbcEncrypt_length, sm4Encrypt_length]

theorem sm4CbcEncryptFinish_eq {c : Sm4CbcCtx × Bytes} {s : Bytes × Bytes} {rest : Bytes}
    (hrest : rest.length < 16) (h : CbcHolds key c (s, rest)) :
    sm4CbcEncryptFinish c.1 = some (sm4Encrypt key (memxor (padded rest) s.1)) := by
  obtain ⟨hkey, rfl, hnbytes, unused, hblock, -⟩ := h
  have hroom : ¬ 16 ≤ c.1.blockNbytes := by
    rw [hnbytes]
    exact Nat.not_le.mpr hrest
  have hwaiting : c.1.block.take c.1.blockNbytes = rest := by
    rw [hblock, hnbytes]
    exact List.take_left' rfl
  rw [sm4CbcEncryptFinish, if_neg hroom, hwaiting, hkey, sm4CbcPaddingEncrypt_eq,
    Nat.div_eq_of_lt hrest]
  rfl

theorem encryptPieces_run (stack : Sm4Key) (userKey iv : Bytes) (pieces : List Bytes) :
    ∃ c, pieces.foldlM (appendTo sm4CbcEncryptUpdate) (sm4CbcEncryptInit stack userKey iv, []) =
        some c ∧
      CbcHolds (setEncryptKey stack userKey) c
        (absorb 16 (chain (setEncryptKey stack userKey)) (iv, []) pieces.flatten) := by
  have hstart : CbcHolds (setEncryptKey stack userKey) (sm4CbcEncryptInit stack userKey iv, [])
      ((iv, []), []) := ⟨rfl, rfl, rfl, List.replicate 16 0, rfl, rfl⟩
  have hzero : ([] : Bytes).length < 16 := Nat.zero_lt_succ 15
  exact foldlM_simulates (Nat.zero_lt_succ 15)
    (fun _ _ _ data hrest h => sm4CbcEncryptUpdate_spec hrest h data) pieces hzero hstart

/-- However a text is cut into pieces, it is encrypted as a whole. -/
theorem encryptPieces_eq (stack : Sm4Key) (userKey iv : Bytes) (pieces : List Bytes) :
    encryptPieces stack userKey iv pieces =
      some (sm4CbcPaddingEncrypt (setEncryptKey stack userKey) iv pieces.flatten) := by
  obtain ⟨c, hrun, hc⟩ := encryptPieces_run stack userKey iv pieces
  rw [absorb, absorbBlocks_chain, List.nil_append] at hc
  have hrest : (pieces.flatten.drop (16 * (pieces.flatten.length / 16))).length < 16 := by
    rw [List.length_drop]
    omega
  have hfinish := sm4CbcEncryptFinish_eq hrest hc
  have hout : c.2 = sm4CbcEncrypt (setEncryptKey stack userKey) iv pieces.flatten
      (pieces.flatten.length / 16) := congrArg Prod.snd hc.2.1
  rw [encryptPieces, hrun, sm4CbcPaddingEncrypt_eq]
  simp only [Option.bind_eq_bind, Option.bind_some, hfinish, hout, Option.pure_def]

end Padding

section Decrypt
variable {key key' : Sm4Key} {iv : Bytes}

theorem ivAfter_length {cipher : Bytes} (hiv : iv.length = 16)
    (h : cipher = [] ∨ 16 ≤ cipher.length) : (ivAfter iv cipher).length = 16 := by
  rw [ivAfter]
  split
  · exact hiv
  · rename_i hne
    rw [List.length_drop]
    have := h.resolve_left hne
    omega

/-- With the keys of the two directions, the blocks come back, whatever follows them. -/
theorem sm4CbcDecrypt_encrypt (hback : ∀ block : Bytes, block.length = 16 →
      sm4Encrypt key' (sm4Encrypt key block) = block) (hiv : iv.length = 16) {data : Bytes} {k : ℕ}
    (h : 16 * k ≤ data.length) (tail : Bytes) :
    sm4CbcDecrypt key' iv (sm4CbcEncrypt key iv data k ++ tail) k = data.take (16 * k) := by
  induction k generalizing iv data with
  | zero => rfl
  | succ k ih =>
    have hblock : (data.take 16).length = 16 := List.length_take_of_le (by omega)
    have hxor : (memxor (data.take 16) iv).length = 16 := by
      rw [memxor_length (by omega), hblock]
    have hcipher := sm4Encrypt_length key (memxor (data.take 16) iv)
    have hdrop : 16 * k ≤ (data.drop 16).length := by
      rw [List.length_drop]
      omega
    rw [sm4CbcEncrypt, sm4CbcDecrypt, List.append_assoc, List.take_left' hcipher,
      List.drop_left' hcipher, hback _ hxor, memxor_twice (by omega), ih hcipher hdrop,
      Nat.mul_succ, Nat.add_comm, List.take_add]

/-- The last block opens without its padding. -/
theorem sm4CbcPaddingDecrypt_last (hback : ∀ block : Bytes, block.length = 16 →
      sm4Encrypt key' (sm4Encrypt key block) = block) (hiv : iv.length = 16) {rest : Bytes}
    (hrest : rest.length < 16) :
    sm4CbcPaddingDecrypt key' iv (sm4Encrypt key (memxor (padded rest) iv)) = .ok rest := by
  have hcipher := sm4Encrypt_length key (memxor (padded rest) iv)
  have hpadded := padded_length hrest
  have hxor : (memxor (padded rest) iv).length = 16 := by rw [memxor_length (by omega), hpadded]
  have hblock : sm4CbcDecrypt key' iv (sm4Encrypt key (memxor (padded rest) iv)) 1 =
      padded rest := by
    rw [sm4CbcDecrypt, sm4CbcDecrypt, List.append_nil, List.take_of_length_le hcipher.le,
      hback _ hxor, memxor_twice (by omega)]
  have hlast : ((padded rest).getD 15 0).toNat = 16 - rest.length := by
    rw [padded, List.getD_append_right _ _ _ _ (by omega), List.getD_eq_getElem _ _ (by
      rw [List.length_replicate]
      omega), List.getElem_replicate, UInt8.toNat_ofNat_of_lt' (by
      change _ < 256
      omega)]
  have hrange : ¬ (16 - rest.length < 1 ∨ 16 < 16 - rest.length) := by omega
  rw [sm4CbcPaddingDecrypt, hcipher]
  simp only [Nat.reduceMod, Nat.lt_irrefl, if_false, Nat.sub_self, List.drop_zero, hblock, hlast,
    hrange, List.nil_append]
  rw [if_neg (by decide), if_neg (by decide), show 16 - (16 - rest.length) = rest.length by omega,
    padded, List.take_left]

theorem sm4CbcPaddingDecrypt_append {cipher last : Bytes} {k : ℕ} (hcipher : cipher.length = 16 * k)
    (hlast : last.length = 16) :
    sm4CbcPaddingDecrypt key iv (cipher ++ last) =
      (sm4CbcPaddingDecrypt key (ivAfter iv cipher) last).map
        (sm4CbcDecrypt key iv (cipher ++ last) k ++ ·) := by
  have hlength : (cipher ++ last).length = 16 * k + 16 := by
    rw [List.length_append, hcipher, hlast]
  have hdrop : (cipher ++ last).drop (16 * k + 16 - 16) = last := by
    rw [Nat.add_sub_cancel]
    exact List.drop_left' hcipher
  have hout : (if 16 < 16 * k + 16 then
      sm4CbcDecrypt key iv (cipher ++ last) ((16 * k + 16) / 16 - 1) else []) =
        sm4CbcDecrypt key iv (cipher ++ last) k := by
    cases k with
    | zero => rfl
    | succ k => rw [if_pos (by omega), show (16 * (k + 1) + 16) / 16 - 1 = k + 1 by omega]
  have hbefore : (if 16 < 16 * k + 16 then ((cipher ++ last).drop (16 * k + 16 - 32)).take 16
      else iv) = ivAfter iv cipher := by
    cases k with
    | zero =>
      obtain rfl : cipher = [] := List.length_eq_zero_iff.mp hcipher
      rfl
    | succ k =>
      have hne : cipher ≠ [] := by
        rintro rfl
        rw [List.length_nil] at hcipher
        omega
      rw [if_pos (by omega), ivAfter, if_neg hne, hcipher,
        List.drop_append_of_le_length (by omega),
        show 16 * (k + 1) + 16 - 32 = 16 * (k + 1) - 16 by omega]
      apply List.take_left'
      rw [List.length_drop]
      omega
  have hempty : ¬ 16 * k + 16 = 0 := by omega
  have hblocks : ¬ ((16 * k + 16) % 16 ≠ 0 ∨ 16 * k + 16 < 16) := by omega
  rw [sm4CbcPaddingDecrypt, sm4CbcPaddingDecrypt, hlength, hlast, hout, hbefore, hdrop,
    if_neg hempty, if_neg hblocks, if_neg (show ¬ 16 = 0 by decide),
    if_neg (show ¬ (16 % 16 ≠ 0 ∨ 16 < 16) by decide)]
  simp only [Nat.lt_irrefl, if_false, Nat.sub_self, List.drop_zero, List.nil_append]
  split <;> rfl

/-- A whole text comes back from its ciphertext. -/
theorem sm4CbcPaddingDecrypt_encrypt (hback : ∀ block : Bytes, block.length = 16 →
      sm4Encrypt key' (sm4Encrypt key block) = block) (hiv : iv.length = 16) (data : Bytes) :
    sm4CbcPaddingDecrypt key' iv (sm4CbcPaddingEncrypt key iv data) = .ok data := by
  have hlength := sm4CbcEncrypt_length key iv data (data.length / 16)
  have hrest : (data.drop (16 * (data.length / 16))).length < 16 := by
    rw [List.length_drop]
    omega
  have hbefore : (ivAfter iv (sm4CbcEncrypt key iv data (data.length / 16))).length = 16 :=
    ivAfter_length hiv (by
      rw [← List.length_eq_zero_iff, hlength]
      omega)
  rw [sm4CbcPaddingEncrypt_eq, sm4CbcPaddingDecrypt_append hlength (sm4Encrypt_length _ _),
    sm4CbcPaddingDecrypt_last hback hbefore hrest, sm4CbcDecrypt_encrypt hback hiv (by omega)]
  exact congrArg Except.ok (List.take_append_drop _ data)

end Decrypt

section Pieces
variable {key : Sm4Key} {iv out : Bytes}

/-- One update: the bytes that stay, and the new ones behind them. -/
def decryptStep (key : Sm4Key) (p : (Bytes × Bytes) × Bytes) (data : Bytes) :
    (Bytes × Bytes) × Bytes :=
  absorbBehind 16 (unchain key) 1 p.1 (stays p.2 ++ data)

theorem decryptPieces_run {c : Sm4CbcCtx × Bytes} {p : (Bytes × Bytes) × Bytes}
    (hrest : p.2.length ≤ 16) (h : CbcHolds key c p) (pieces : List Bytes) :
    ∃ c', pieces.foldlM (appendTo sm4CbcDecryptUpdate) c = some c' ∧
      CbcHolds key c' (pieces.foldl (decryptStep key) p) ∧
        (pieces.foldl (decryptStep key) p).2.length ≤ 16 := by
  induction pieces generalizing c p with
  | nil => exact ⟨c, rfl, h, hrest⟩
  | cons data pieces ih =>
    obtain ⟨c', hstep, hc'⟩ := sm4CbcDecryptUpdate_spec hrest h data
    have hlt := absorbBehind_rest_lt (show 0 < 16 by decide) (w := 1) (f := unchain key) p.1
      (stays p.2 ++ data)
    obtain ⟨c'', hrun, hc''⟩ := ih (Nat.le_of_lt_succ hlt) hc'
    refine ⟨c'', ?_, hc''⟩
    rw [List.foldlM_cons, hstep]
    exact hrun

/-- No update begins behind whole blocks, unless it is before all bytes; `n` bytes came before. -/
def CutsInside (n : ℕ) : List Bytes → Prop
  | [] => True
  | data :: pieces => (n = 0 ∨ ¬ 16 ∣ n) ∧ CutsInside (n + data.length) pieces

theorem waiting_length (s : Bytes × Bytes) (xs : Bytes) :
    (absorbBehind 16 (unchain key) 1 s xs).2.length = 16 ↔ xs.length ≠ 0 ∧ 16 ∣ xs.length := by
  rw [absorbBehind, List.length_drop]
  omega

/-- With all cuts inside blocks the stream is the one without cuts. -/
theorem foldl_of_cutsInside (key : Sm4Key) {s : Bytes × Bytes} (xs : Bytes) {pieces : List Bytes}
    (h : CutsInside xs.length pieces) :
    pieces.foldl (decryptStep key) (absorbBehind 16 (unchain key) 1 s xs) =
      absorbBehind 16 (unchain key) 1 s (xs ++ pieces.flatten) := by
  induction pieces generalizing xs with
  | nil => rw [List.flatten_nil, List.append_nil, List.foldl_nil]
  | cons data pieces ih =>
    have hstays : (absorbBehind 16 (unchain key) 1 s xs).2.length ≠ 16 := by
      rw [ne_eq, waiting_length]
      rintro ⟨hne, hdvd⟩
      rcases h.1 with hzero | hcut
      · exact hne hzero
      · exact hcut hdvd
    have htail : CutsInside (xs ++ data).length pieces := by
      rw [List.length_append]
      exact h.2
    rw [List.foldl_cons, decryptStep, stays, if_neg hstays, ← absorbBehind_append (by decide),
      ih _ htail, List.flatten_cons, List.append_assoc]

/-- The bytes written and the bytes that wait. -/
def written (p : (Bytes × Bytes) × Bytes) : ℕ := p.1.2.length + p.2.length

theorem absorbBlocks_unchain_length (key : Sm4Key) {s : Bytes × Bytes} {k : ℕ} {xs : Bytes}
    (hiv : s.1.length = 16) (h : 16 * k ≤ xs.length) :
    (absorbBlocks 16 (unchain key) k s xs).1.length = 16 ∧
      (absorbBlocks 16 (unchain key) k s xs).2.length = s.2.length + 16 * k := by
  induction k generalizing s xs with
  | zero => exact ⟨hiv, rfl⟩
  | succ k ih =>
    have hblock : (xs.take 16).length = 16 := List.length_take_of_le (by omega)
    have hdrop : 16 * k ≤ (xs.drop 16).length := by
      rw [List.length_drop]
      omega
    have hout : (unchain key s (xs.take 16)).2.length = s.2.length + 16 := by
      rw [unchain, List.length_append, memxor_length (by rw [sm4Encrypt_length, hiv]),
        sm4Encrypt_length]
    obtain ⟨hfst, hsnd⟩ := ih (s := unchain key s (xs.take 16)) hblock hdrop
    rw [absorbBlocks]
    exact ⟨hfst, by rw [hsnd, hout]; omega⟩

/-- An update writes and keeps what it is given, but for a whole block that waits. -/
theorem written_decryptStep (key : Sm4Key) {p : (Bytes × Bytes) × Bytes}
    (hiv : p.1.1.length = 16) (data : Bytes) :
    (decryptStep key p data).1.1.length = 16 ∧
      written (decryptStep key p data) = p.1.2.length + (stays p.2).length + data.length := by
  have hle : 16 * (((stays p.2 ++ data).length - 1) / 16) ≤ (stays p.2 ++ data).length := by omega
  obtain ⟨hfst, hsnd⟩ := absorbBlocks_unchain_length key hiv hle
  refine ⟨hfst, ?_⟩
  rw [written, decryptStep, absorbBehind, hsnd, List.length_drop, List.length_append]
  rw [List.length_append] at hle
  omega

/-- A whole block that waits before an update is lost, and nothing comes in its place. -/
theorem written_foldl (key : Sm4Key) {p : (Bytes × Bytes) × Bytes} (hiv : p.1.1.length = 16)
    (pieces : List Bytes) :
    written (pieces.foldl (decryptStep key) p) ≤ written p + pieces.flatten.length := by
  induction pieces generalizing p with
  | nil => exact Nat.le_refl _
  | cons data pieces ih =>
    obtain ⟨hfst, hwritten⟩ := written_decryptStep key hiv data
    have hstays : (stays p.2).length ≤ p.2.length := by
      rw [stays]
      split
      · exact Nat.zero_le _
      · exact Nat.le_refl _
    have hrest := ih hfst
    rw [List.foldl_cons, List.flatten_cons, List.length_append]
    have hbefore : written p = p.1.2.length + p.2.length := rfl
    rw [hwritten] at hrest
    omega

theorem written_of_not_cutsInside (key : Sm4Key) {s : Bytes × Bytes} (hiv : s.1.length = 16)
    (xs : Bytes) {pieces : List Bytes} (h : ¬ CutsInside xs.length pieces) :
    written (pieces.foldl (decryptStep key) (absorbBehind 16 (unchain key) 1 s xs)) + 16 ≤
      written (absorbBehind 16 (unchain key) 1 s xs) + pieces.flatten.length := by
  induction pieces generalizing xs with
  | nil => exact absurd trivial h
  | cons data pieces ih =>
    set p := absorbBehind 16 (unchain key) 1 s xs with hp
    have hbefore : p.1.1.length = 16 :=
      (absorbBlocks_unchain_length key hiv (by omega)).1
    have hsum : written p = p.1.2.length + p.2.length := rfl
    rw [List.foldl_cons, List.flatten_cons, List.length_append]
    by_cases hwhole : p.2.length = 16
    · -- the block is lost here
      obtain ⟨hfst, hwritten⟩ := written_decryptStep key hbefore data
      have hrest := written_foldl key hfst pieces
      rw [hwritten, stays, if_pos hwhole, List.length_nil] at hrest
      omega
    · have hcut : xs.length = 0 ∨ ¬ 16 ∣ xs.length := by
        by_contra hne
        rw [not_or, not_not] at hne
        exact hwhole ((waiting_length s xs).mpr hne)
      have htail : ¬ CutsInside (xs ++ data).length pieces := by
        rw [List.length_append]
        exact fun hcuts => h ⟨hcut, hcuts⟩
      have hstep : decryptStep key p data = absorbBehind 16 (unchain key) 1 s (xs ++ data) := by
        rw [decryptStep, stays, if_neg hwhole, absorbBehind_append (by decide) s xs data]
      have hwritten := (written_decryptStep key hbefore data).2
      rw [stays, if_neg hwhole] at hwritten
      have hrest := ih _ htail
      rw [← hstep, hwritten] at hrest
      omega

theorem decryptPieces_eq (stack : Sm4Key) (userKey iv : Bytes) (pieces : List Bytes) :
    decryptPieces stack userKey iv pieces =
      let p := pieces.foldl (decryptStep (setDecryptKey stack userKey)) ((iv, []), [])
      if p.2.length ≠ 16 then none
      else (sm4CbcPaddingDecrypt (setDecryptKey stack userKey) p.1.1 p.2).toOption.map
        (p.1.2 ++ ·) := by
  have hstart : CbcHolds (setDecryptKey stack userKey) (sm4CbcDecryptInit stack userKey iv, [])
      ((iv, []), []) := ⟨rfl, rfl, rfl, List.replicate 16 0, rfl, rfl⟩
  obtain ⟨c, hrun, ⟨hkey, hs, hnbytes, unused, hblock, hsize⟩, -⟩ :=
    decryptPieces_run (show ([] : Bytes).length ≤ 16 from Nat.zero_le 16) hstart pieces
  rw [decryptPieces, hrun]
  simp only [Option.bind_eq_bind, Option.bind_some, sm4CbcDecryptFinish, hnbytes]
  by_cases hwhole :
      (pieces.foldl (decryptStep (setDecryptKey stack userKey)) ((iv, []), [])).2.length = 16
  · have hunused : unused = [] := List.length_eq_zero_iff.mp (by omega)
    rw [hunused, List.append_nil] at hblock
    rw [if_neg (not_not.mpr hwhole), if_neg (not_not.mpr hwhole), hkey, hblock, ← hs]
    cases (sm4CbcPaddingDecrypt (setDecryptKey stack userKey) c.1.iv _).toOption <;> rfl
  · rw [if_pos hwhole, if_pos hwhole]
    rfl

theorem length_lt_of_paddingDecrypt {block last : Bytes} (hblock : block.length = 16)
    (h : sm4CbcPaddingDecrypt key iv block = .ok last) : last.length < 16 := by
  rw [sm4CbcPaddingDecrypt, hblock, if_neg (show ¬ 16 = 0 by decide),
    if_neg (show ¬ (16 % 16 ≠ 0 ∨ 16 < 16) by decide)] at h
  simp only [Nat.lt_irrefl, if_false, List.nil_append] at h
  split at h
  · cases h
  · rename_i hpadding
    cases h
    have htake := List.length_take_le
      (16 - ((sm4CbcDecrypt key iv (block.drop (16 - 16)) 1).getD 15 0).toNat)
      (sm4CbcDecrypt key iv (block.drop (16 - 16)) 1)
    omega

/-- The pieces of a ciphertext give the text back exactly when no update begins behind whole
blocks: such an update loses the block before it. -/
theorem decryptPieces_iff (stack stack' : Sm4Key) (userKey : Bytes) {iv text : Bytes}
    (hiv : iv.length = 16) {pieces : List Bytes}
    (h : pieces.flatten = sm4CbcPaddingEncrypt (setEncryptKey stack userKey) iv text) :
    decryptPieces stack' userKey iv pieces = some text ↔ CutsInside 0 pieces := by
  have hback : ∀ block : Bytes, block.length = 16 → sm4Encrypt (setDecryptKey stack' userKey)
      (sm4Encrypt (setEncryptKey stack userKey) block) = block :=
    fun block hblock => (sm4Encrypt_schedules _ _ userKey hblock).1
  have hstart : absorbBehind 16 (unchain (setDecryptKey stack' userKey)) 1 (iv, []) [] =
      ((iv, []), []) := absorbBehind_of_lt (show 0 < 16 + 1 by decide)
  have hlength : pieces.flatten.length = 16 * (text.length / 16) + 16 := by
    rw [h, sm4CbcPaddingEncrypt_length]
  rw [decryptPieces_eq]
  constructor
  · intro hsome
    by_contra hcuts
    have hlost := written_of_not_cutsInside (setDecryptKey stack' userKey)
      (s := (iv, [])) hiv [] hcuts
    rw [hstart] at hlost
    generalize pieces.foldl (decryptStep (setDecryptKey stack' userKey)) ((iv, []), []) = p at *
    have hsum : written p = p.1.2.length + p.2.length := rfl
    have hzero : written ((iv, ([] : Bytes)), ([] : Bytes)) = 0 := rfl
    by_cases hwhole : p.2.length = 16
    · simp only [hwhole, ne_eq, not_true, if_false] at hsome
      cases hlast : sm4CbcPaddingDecrypt (setDecryptKey stack' userKey) p.1.1 p.2 with
      | error code =>
        rw [hlast] at hsome
        cases hsome
      | ok last =>
        rw [hlast] at hsome
        have htext : p.1.2 ++ last = text := Option.some.inj hsome
        have hshort := length_lt_of_paddingDecrypt hwhole hlast
        have hsize : text.length = p.1.2.length + last.length := by
          rw [← htext, List.length_append]
        omega
    · simp only [ne_eq, hwhole, not_false_eq_true, if_true] at hsome
      cases hsome
  · intro hcuts
    have hwhole := foldl_of_cutsInside (setDecryptKey stack' userKey) (s := (iv, [])) []
      hcuts
    have hcipher := sm4CbcEncrypt_length (setEncryptKey stack userKey) iv text (text.length / 16)
    have hrest : (text.drop (16 * (text.length / 16))).length < 16 := by
      rw [List.length_drop]
      omega
    have hbefore : (ivAfter iv (sm4CbcEncrypt (setEncryptKey stack userKey) iv text
        (text.length / 16))).length = 16 :=
      ivAfter_length hiv (by
        rw [← List.length_eq_zero_iff, hcipher]
        omega)
    rw [hstart, List.nil_append, absorbBehind, hlength,
      show (16 * (text.length / 16) + 16 - 1) / 16 = text.length / 16 by omega,
      absorbBlocks_unchain (by omega), List.nil_append, h, sm4CbcPaddingEncrypt_eq,
      List.take_left' hcipher, List.drop_left' hcipher,
      sm4CbcDecrypt_encrypt hback hiv (by omega)] at hwhole
    rw [hwhole]
    simp only [sm4Encrypt_length, ne_eq, not_true, if_false,
      sm4CbcPaddingDecrypt_last hback hbefore hrest]
    exact congrArg some (List.take_append_drop _ text)

/-- A cut behind the first block of the ciphertext of sixteen zeros. -/
example : decryptPieces ⟨List.replicate 32 0, rfl⟩ (List.replicate 16 7) (List.replicate 16 0)
    [[154, 152, 184, 162, 120, 35, 58, 113, 19, 92, 254, 114, 105, 165, 158, 31],
      [97, 236, 163, 118, 7, 63, 193, 129, 176, 36, 223, 166, 77, 209, 82, 15]] = some [138] := by
  decide +kernel

end Pieces

end PrivacyComputing.Sm4
