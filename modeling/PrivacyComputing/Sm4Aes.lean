import PrivacyComputing.EnvelopeRoundTrip
import PrivacyComputing.Sm4Gcm

/-! The cipher of the `gmssl` pack, `sm4_aes` on the host and in the enclave: counter mode with a
prefix in its associated data. -/
namespace PrivacyComputing.Sm4Aes
open BufferWindow Envelope Gf128 LittleEndian Sm4

inductive Sm4AesError
  | eccInvalidAesKeySize | aesInvalidCipherSize | aesInvalidDataSize | aesRandFail
  | sm4DecryptError
  | sgx (n : ℕ)
  deriving DecidableEq, Repr

def getMacCodeSize : ℕ := 16
def getKeySize : ℕ := 16

/-- `mac_text`, with the prefix at its place. -/
def macText (aadPrefix : UInt32) : Option Bytes :=
  poke aadMacText aadMacPrefixPos (encode 4 aadPrefix.toNat)

/-- `RAND_bytes` and `sgx_read_rand`. -/
def drawIv : Side → Rng → Except Sm4AesError Bytes
  | _, .ok iv :: _ => .ok (CryptoPack.fit initializationVectorSize.toNat iv)
  | .core, _ => .error .aesRandFail
  | .coreT, .error e :: _ => .error (.sgx e)
  | .coreT, [] => .error (.sgx 1)

/-- The cipher text and its code. `stack` is what the variable `sm4_key` holds before its schedule
is run, and `none` an access outside a buffer. -/
def encryptWithPrefix (side : Side) (stack : Sm4Key) (key data : Bytes)
    (dataSize aadPrefix : UInt32) (cipher : Bytes) (cipherSize : UInt32) (rng : Rng) :
    Option (Except Sm4AesError (Bytes × Bytes)) := do
  if key.length ≠ getKeySize then return .error .eccInvalidAesKeySize
  else if cipherSize ≠ dataSize + initializationVectorSize then
    return .error .aesInvalidCipherSize
  else
    let aad ← macText aadPrefix
    match drawIv side rng with
    | .error e => return .error e
    | .ok iv =>
      let cipher ← poke cipher dataSize.toNat iv
      let plain ← peek data 0 dataSize.toNat
      let (out, mac) := sm4GcmEncrypt (setEncryptKey stack key) iv aad plain getMacCodeSize
      let cipher ← poke cipher 0 out
      return .ok (cipher, mac)

def decryptWithPrefix (stack : Sm4Key) (key cipher : Bytes) (cipherSize aadPrefix dataSize : UInt32)
    (inMac : Bytes) : Option (Except Sm4AesError Bytes) := do
  if key.length ≠ getKeySize then return .error .eccInvalidAesKeySize
  else if cipherSize ≠ dataSize + initializationVectorSize then return .error .aesInvalidDataSize
  else
    let aad ← macText aadPrefix
    let iv ← peek cipher dataSize.toNat initializationVectorSize.toNat
    let body ← peek cipher 0 dataSize.toNat
    let mac ← peek inMac 0 getMacCodeSize
    match sm4GcmDecrypt (setEncryptKey stack key) iv aad body mac getMacCodeSize with
    | none => return .error .sm4DecryptError
    | some data => return .ok data

section RoundTrip

theorem macText_eq (aadPrefix : UInt32) : macText aadPrefix = some (aadOf aadPrefix) := by
  rw [macText, poke, if_pos (by simp [aadMacText_length, aadMacPrefixPos]), encode_length]
  rfl

/-- The key schedule does not depend on what its variable held before. -/
theorem setEncryptKey_stack (stack stack' : Sm4Key) (key : Bytes) :
    setEncryptKey stack key = setEncryptKey stack' key := by
  have hrk := (setEncryptKey_rk stack key).trans (setEncryptKey_rk stack' key).symm
  generalize setEncryptKey stack key = k at hrk ⊢
  generalize setEncryptKey stack' key = k' at hrk ⊢
  cases k
  cases k'
  cases hrk
  rfl

variable {key data buffer : Bytes}

lemma size_toNat (hdata : data.length + 12 < 2 ^ 32) :
    (UInt32.ofNat data.length).toNat = data.length ∧
      UInt32.ofNat (data.length + 12) = UInt32.ofNat data.length + initializationVectorSize := by
  constructor
  · exact UInt32.toNat_ofNat_of_lt' ((show data.length < 2 ^ 32 by omega).trans_le (by decide))
  · rw [UInt32.ofNat_add]
    rfl

/-- The cipher text, and the IV behind it. -/
theorem encryptWithPrefix_eq (side : Side) (stack : Sm4Key) (hkey : key.length = getKeySize)
    (hdata : data.length + 12 < 2 ^ 32) (aadPrefix : UInt32)
    (hbuffer : buffer.length = data.length + 12) (drawn : Bytes) (rest : Rng) :
    encryptWithPrefix side stack key data (UInt32.ofNat data.length) aadPrefix buffer
        (UInt32.ofNat (data.length + 12)) (.ok drawn :: rest) =
      some (.ok ((sm4GcmEncrypt (setEncryptKey stack key) (CryptoPack.fit 12 drawn)
          (aadOf aadPrefix) data 16).1 ++ CryptoPack.fit 12 drawn,
        (sm4GcmEncrypt (setEncryptKey stack key) (CryptoPack.fit 12 drawn) (aadOf aadPrefix) data
          16).2)) := by
  obtain ⟨hsize, hsum⟩ := size_toNat hdata
  have hfit : (CryptoPack.fit 12 drawn).length = 12 := CryptoPack.fit_length _ _
  have hdraw : drawIv side (.ok drawn :: rest) = .ok (CryptoPack.fit 12 drawn) := by
    cases side <;> rfl
  set out := sm4GcmEncrypt (setEncryptKey stack key) (CryptoPack.fit 12 drawn) (aadOf aadPrefix)
    data 16 with hout
  have hlength : out.1.length = data.length := gcmLoop_length _ _ _
  obtain ⟨z0, z1, rfl, h0, h1⟩ := exists_windows hbuffer
  have hiv : poke (z0 ++ z1) data.length (CryptoPack.fit 12 drawn) =
      some (z0 ++ CryptoPack.fit 12 drawn) := by
    simpa using poke_append z0 z1 [] h0 (by rw [h1, hfit])
  have hbody : poke (z0 ++ CryptoPack.fit 12 drawn) 0 out.1 =
      some (out.1 ++ CryptoPack.fit 12 drawn) := by
    simpa using poke_append [] z0 (CryptoPack.fit 12 drawn) rfl (by rw [h0, hlength])
  rw [encryptWithPrefix, if_neg (not_not.mpr hkey), if_neg (not_not.mpr hsum), macText_eq,
    Option.bind_eq_bind, Option.bind_some, hdraw]
  simp only [hsize, hiv, Option.bind_some, peek_whole, getMacCodeSize, ← hout, hbody]
  rfl

/-- What decryption makes of the code follows from what the mode makes of it. -/
theorem decryptWithPrefix_eq (stack : Sm4Key) (hkey : key.length = getKeySize)
    {body iv mac : Bytes} (hbody : body.length = data.length)
    (hdata : data.length + 12 < 2 ^ 32) (hiv : iv.length = 12) (hmac : mac.length = 16)
    (aadPrefix : UInt32) :
    decryptWithPrefix stack key (body ++ iv) (UInt32.ofNat (data.length + 12)) aadPrefix
        (UInt32.ofNat data.length) mac =
      some (match sm4GcmDecrypt (setEncryptKey stack key) iv (aadOf aadPrefix) body mac 16 with
        | none => .error .sm4DecryptError
        | some data => .ok data) := by
  obtain ⟨hsize, hsum⟩ := size_toNat hdata
  have h12 : initializationVectorSize.toNat = 12 := rfl
  have hpeekIv : peek (body ++ iv) data.length 12 = some iv := by
    simpa using peek_append body iv [] hbody hiv
  have hpeekBody : peek (body ++ iv) 0 data.length = some body := by
    simpa using peek_append [] body iv rfl hbody
  have hpeekMac : peek mac 0 16 = some mac := by
    rw [← hmac, peek_whole]
  rw [decryptWithPrefix, if_neg (not_not.mpr hkey), if_neg (not_not.mpr hsum), macText_eq,
    Option.bind_eq_bind, Option.bind_some]
  simp only [hsize, h12, hpeekIv, hpeekBody, getMacCodeSize, hpeekMac, Option.bind_some]
  cases sm4GcmDecrypt (setEncryptKey stack key) iv (aadOf aadPrefix) body mac 16 <;> rfl

/-- The block of the associated data that holds the prefix. -/
def prefixBlock (aadPrefix : UInt32) : Bytes :=
  (aadMacText.drop 16).take 8 ++ encode 4 aadPrefix.toNat ++ (aadMacText.drop 28).take 4

theorem aadOf_blocks (aadPrefix : UInt32) :
    aadOf aadPrefix = aadMacText.take 16 ++ (prefixBlock aadPrefix ++ aadMacText.drop 32) := rfl

theorem prefixBlock_length (aadPrefix : UInt32) : (prefixBlock aadPrefix).length = 16 := rfl

/-- Under a key that does not hide the zero block behind itself, the code depends on the prefix. -/
theorem gcm_prefix_unique {k : Sm4Key} {iv : Bytes} {p p' : UInt32}
    (hk : sm4Encrypt k (List.replicate 16 0) ≠ List.replicate 16 0)
    (h : (sm4GcmEncrypt k iv (aadOf p) data 16).2 = (sm4GcmEncrypt k iv (aadOf p') data 16).2) :
    p = p' := by
  rw [sm4GcmEncrypt_tag, sm4GcmEncrypt_tag] at h
  have hhash := memxor_inj (by rw [ghash_length, sm4Encrypt_length])
    (by rw [ghash_length, sm4Encrypt_length]) h
  have hbefore : (aadMacText.take 16).length = 16 * 1 := rfl
  rw [aadOf_blocks, aadOf_blocks p'] at hhash
  rcases ghash_one_block hbefore (prefixBlock_length p) (prefixBlock_length p') _ _ _ hhash with
    hblock | hzero
  · apply aadOf_injective
    rw [aadOf_blocks, hblock, ← aadOf_blocks]
  · exfalso
    apply hk
    change fromBytes (sm4Encrypt k (List.replicate 16 0)) = ⟨0, 0⟩ at hzero
    rw [← toBytes_fromBytes (sm4Encrypt_length k _), hzero]
    rfl

/-- Sealing succeeds, and what it writes opens again under its prefix and with no other code. It
opens under no other prefix, if the key does not hide the zero block behind itself. -/
def OpensAsSealed (side : Side) (stack stack' : Sm4Key) (key data buffer drawn : Bytes)
    (rest : Rng) (aadPrefix : UInt32) : Prop :=
  let dataSize := UInt32.ofNat data.length
  let cipherSize := UInt32.ofNat (data.length + 12)
  ∃ cipher mac, encryptWithPrefix side stack key data dataSize aadPrefix buffer cipherSize
      (.ok drawn :: rest) = some (.ok (cipher, mac)) ∧
    cipher.length = data.length + 12 ∧ mac.length = 16 ∧
    decryptWithPrefix stack' key cipher cipherSize aadPrefix dataSize mac = some (.ok data) ∧
    (∀ mac', mac'.length = 16 → mac' ≠ mac →
      decryptWithPrefix stack' key cipher cipherSize aadPrefix dataSize mac' =
        some (.error .sm4DecryptError)) ∧
    (sm4Encrypt (setEncryptKey stack key) (List.replicate 16 0) ≠ List.replicate 16 0 →
      ∀ aadPrefix', aadPrefix' ≠ aadPrefix →
        decryptWithPrefix stack' key cipher cipherSize aadPrefix' dataSize mac =
          some (.error .sm4DecryptError))

end RoundTrip

end PrivacyComputing.Sm4Aes
