import PrivacyComputing.EnvelopeRoundTrip

/-! The sizes of an envelope in 32-bit arithmetic: where the size checks and the announced data
buffer are those of the natural numbers. -/
namespace PrivacyComputing.Envelope
open BufferWindow LittleEndian Effect

/-- The two codes that a size check returns. -/
def EnvelopeError.ofSizeCheck : EnvelopeError → Bool
  | .aesInvalidDataSize => true
  | .aesInvalidCipherSize => true
  | _ => false

/-- The call does not end with the code of a size check. -/
def Effect.Avoids {α : Type} (x : Effect α) : Prop := ∀ e, x = .err e → e.ofSizeCheck = false

section Avoid
variable {α β : Type}

@[simp] lemma avoids_ok (a : α) : (Effect.ok a).Avoids := fun _ h => nomatch h
@[simp] lemma avoids_throws : (Effect.throws : Effect α).Avoids := fun _ h => nomatch h
@[simp] lemma avoids_overruns : (Effect.overruns : Effect α).Avoids := fun _ h => nomatch h

lemma avoids_err {e : EnvelopeError} (he : e.ofSizeCheck = false) :
    (Effect.err e : Effect α).Avoids := fun _ h => Effect.err.inj h ▸ he

lemma avoids_bind {x : Effect α} {f : α → Effect β} (hx : x.Avoids) (hf : ∀ a, (f a).Avoids) :
    (x >>= f).Avoids := by
  cases x with
  | ok a => exact hf a
  | err e => exact avoids_err (hx e rfl)
  | throws => exact avoids_throws
  | overruns => exact avoids_overruns

@[simp] lemma avoids_access (x : Option α) : (access x).Avoids := by
  cases x <;> simp

variable {L : Library}

lemma genPrivateKeyCore_avoids (counter : ℕ) (rng : Rng) :
    (genPrivateKeyCore L counter rng).Avoids := by
  induction rng generalizing counter with
  | nil => exact avoids_throws
  | cons drawn rng ih =>
    cases drawn with
    | error n => exact avoids_throws
    | ok drawn =>
      unfold genPrivateKeyCore
      split_ifs
      · exact avoids_throws
      · exact avoids_ok _
      · exact ih _

lemma genPrivateKeyCoreT_avoids (rng : Rng) : (genPrivateKeyCoreT L rng).Avoids := by
  induction rng with
  | nil => exact avoids_err rfl
  | cons drawn rng ih =>
    cases drawn with
    | error n => exact avoids_err rfl
    | ok drawn =>
      unfold genPrivateKeyCoreT
      split_ifs
      · exact avoids_ok _
      · exact ih

lemma genPrivateKey_avoids (side : Side) (rng : Rng) : (genPrivateKey L side rng).Avoids := by
  cases side with
  | core => exact genPrivateKeyCore_avoids 0 rng
  | coreT => exact genPrivateKeyCoreT_avoids rng

lemma generatePkey_avoids (skey : Bytes) : (generatePkeyFromSkey L skey).Avoids := by
  unfold generatePkeyFromSkey
  split
  · exact avoids_ok _
  · exact avoids_err rfl

lemma ecdhSharedKey_avoids (side : Side) (skey publicKey : Bytes) (size : UInt32) :
    (ecdhSharedKey L side skey publicKey size).Avoids := by
  unfold ecdhSharedKey
  split_ifs
  · exact avoids_err rfl
  · exact avoids_err rfl
  · exact avoids_err rfl
  · split
    · exact avoids_err rfl
    · rw [deriveKey, derivationBuffer_eq]
      exact avoids_ok _

lemma gcmSeal_avoids (key iv aad data : Bytes) (size : UInt32) (side : Side) :
    (gcmSeal L key iv aad data size side).Avoids := by
  rw [gcmSeal_eq]
  split_ifs
  · exact avoids_throws
  · exact avoids_ok _

lemma gcmOpen_avoids (key iv aad cipher tag : Bytes) (size : UInt32) (side : Side) :
    (gcmOpen L key iv aad cipher tag size side).Avoids := by
  cases side with
  | core =>
    rw [gcmOpen]
    split_ifs
    · cases L.gcmDecrypt key iv aad cipher tag with
      | some data => exact avoids_ok _
      | none => exact avoids_err rfl
    · exact avoids_throws
  | coreT =>
    rw [gcmOpen]
    cases L.gcmDecrypt key iv aad cipher tag with
    | some data => exact avoids_ok _
    | none => exact avoids_err rfl

lemma drawIv_avoids (side : Side) (rng : Rng) : (drawIv side rng).Avoids := by
  unfold drawIv
  split
  · exact avoids_ok _
  · exact avoids_err rfl
  · exact avoids_err rfl
  · exact avoids_err rfl

lemma encryptWithPrefix_avoids (side : Side) (key data : Bytes) (dataSize aadPrefix : UInt32)
    (cipher : Bytes) (outMac : ℕ) (rng : Rng) :
    (encryptWithPrefix L side key data dataSize aadPrefix cipher (getCipherSize dataSize) outMac
      rng).Avoids := by
  unfold encryptWithPrefix
  split_ifs with hkey hsize
  · exact avoids_err rfl
  · exact absurd rfl hsize
  · rw [macText_eq, ok_bind]
    refine avoids_bind (drawIv_avoids side rng) fun iv => ?_
    refine avoids_bind (avoids_access _) fun buffer => ?_
    refine avoids_bind (avoids_access _) fun plain => ?_
    refine avoids_bind (gcmSeal_avoids _ _ _ _ _ _) fun made => ?_
    exact avoids_bind (avoids_access _) fun buffer => avoids_access _

lemma decryptWithPrefix_avoids (side : Side) (key cipher : Bytes) (dataSize aadPrefix : UInt32)
    (inMac : ℕ) :
    (decryptWithPrefix L side key cipher (getCipherSize dataSize) aadPrefix dataSize
      inMac).Avoids := by
  unfold decryptWithPrefix
  split_ifs with hkey hsize
  · exact avoids_err rfl
  · exact absurd rfl hsize
  · rw [macText_eq, ok_bind]
    refine avoids_bind (avoids_access _) fun iv => ?_
    refine avoids_bind (avoids_access _) fun body => ?_
    refine avoids_bind (avoids_access _) fun tag => ?_
    exact gcmOpen_avoids _ _ _ _ _ _ _

/-- Behind the size check the code of a size check does not come back. -/
lemma encryptInto_avoids (side : Side) (publicKey data : Bytes) (dataSize aadPrefix : UInt32)
    (cipher : Bytes) (rng : Rng) :
    (encryptInto (ethSgxCrypto L side) publicKey data dataSize aadPrefix cipher rng).Avoids := by
  refine avoids_bind (genPrivateKey_avoids side rng) fun made => ?_
  refine avoids_bind (generatePkey_avoids _) fun gpkey => ?_
  refine avoids_bind (avoids_access _) fun buffer => ?_
  refine avoids_bind (ecdhSharedKey_avoids (L := L) side made.1 publicKey 16) fun key => ?_
  exact encryptWithPrefix_avoids side key data dataSize aadPrefix buffer _ _

lemma decryptInto_avoids (side : Side) (privateKey cipher : Bytes) (dataSize aadPrefix : UInt32) :
    (decryptInto (ethSgxCrypto L side) privateKey cipher dataSize aadPrefix).Avoids := by
  refine avoids_bind (avoids_access _) fun publicKey => ?_
  refine avoids_bind (ecdhSharedKey_avoids (L := L) side privateKey publicKey 16) fun key => ?_
  exact decryptWithPrefix_avoids side key cipher dataSize aadPrefix _

end Avoid

/-- A call gets past the size check only if the sizes add up. -/
def SizesAddUp (result : Effect Bytes) (refusal : EnvelopeError) (dataSize cipherSize : UInt32) :
    Prop :=
  result ≠ .err refusal → dataSize.toNat + 92 = cipherSize.toNat

/-- The data buffer with which the decryption of `cipherSize` bytes goes on, unless it reports
an error before. -/
def dataBuffer (P : Parts) (cipherSize : ℕ) : Effect UInt32 := do
  let dataSize ← getDecryptMessageSizeWithPrefix P (UInt32.ofNat cipherSize)
  if P.getCipherSize dataSize + P.getPublicKeySize + P.getMacCodeSize ≠
      UInt32.ofNat cipherSize then
    .err .aesInvalidDataSize
  else return dataSize

/-- The data buffer has what the cipher has without IV, public key and tag. -/
def BufferFits (P : Parts) (cipher : Bytes) : Prop :=
  ∀ dataSize, dataBuffer P cipher.length = .ok dataSize →
    92 ≤ cipher.length ∧ dataSize.toNat = cipher.length - 92

section Checks
variable {L : Library} (side : Side)

lemma decryptMessage_eq (P : Parts) (privateKey cipher : Bytes) (aadPrefix : UInt32) :
    decryptMessage P privateKey cipher aadPrefix =
      dataBuffer P cipher.length >>= fun dataSize =>
        decryptInto P privateKey cipher dataSize aadPrefix := by
  rw [decryptMessage, dataBuffer]
  cases getDecryptMessageSizeWithPrefix P (UInt32.ofNat cipher.length) with
  | ok dataSize =>
    simp only [ok_bind, decryptMessageWithPrefix]
    split_ifs <;> rfl
  | err e => rfl
  | throws => rfl
  | overruns => rfl

lemma sum_toNat (d : UInt32) : (getCipherSize d + 64 + 16).toNat = (d.toNat + 92) % 2 ^ 32 := by
  have h12 : initializationVectorSize.toNat = 12 := rfl
  have h64 : (64 : UInt32).toNat = 64 := rfl
  have h16 : (16 : UInt32).toNat = 16 := rfl
  rw [getCipherSize, UInt32.toNat_add, UInt32.toNat_add, UInt32.toNat_add, h12, h64, h16]
  omega

/-- The check holds modulo `2 ^ 32`. -/
lemma check_iff (d c : UInt32) :
    getCipherSize d + 64 + 16 = c ↔
      d.toNat + 92 = c.toNat ∨ d.toNat + 92 = c.toNat + 2 ^ 32 := by
  have hd := d.toNat_lt
  have hc := c.toNat_lt
  rw [← UInt32.toNat_inj, sum_toNat]
  omega

lemma sizesAddUp_of_checked {result checked : Effect Bytes} {refusal : EnvelopeError}
    {d c : UInt32}
    (hresult : result = if getCipherSize d + 64 + 16 ≠ c then .err refusal else checked)
    (havoids : checked.Avoids) (hrefusal : refusal.ofSizeCheck = true) :
    SizesAddUp result refusal d c ↔ d.toNat + 92 ≠ c.toNat + 2 ^ 32 := by
  have hd := d.toNat_lt
  have hc := c.toNat_lt
  have hcheck := check_iff d c
  constructor
  · intro h hwrap
    have hpast : result ≠ .err refusal := by
      rw [hresult, if_neg (not_not.2 (hcheck.2 (.inr hwrap)))]
      intro herr
      have hfalse := havoids refusal herr
      rw [hrefusal] at hfalse
      cases hfalse
    have hsum := h hpast
    omega
  · intro hwrap hpast
    rw [hresult] at hpast
    split_ifs at hpast with hne
    · exact absurd rfl hpast
    · exact (hcheck.1 (not_not.1 hne)).resolve_right hwrap

lemma encrypt_sizesAddUp (publicKey data : Bytes) (d aadPrefix : UInt32) (cipher : Bytes)
    (c : UInt32) (rng : Rng) :
    SizesAddUp (encryptMessageWithPrefix (ethSgxCrypto L side) publicKey data d aadPrefix cipher c
        rng) .aesInvalidCipherSize d c ↔ d.toNat + 92 ≠ c.toNat + 2 ^ 32 :=
  sizesAddUp_of_checked rfl (encryptInto_avoids side publicKey data d aadPrefix cipher rng) rfl

lemma decrypt_sizesAddUp (privateKey cipher : Bytes) (c d aadPrefix : UInt32) :
    SizesAddUp (decryptMessageWithPrefix (ethSgxCrypto L side) privateKey cipher c d aadPrefix)
        .aesInvalidDataSize d c ↔ d.toNat + 92 ≠ c.toNat + 2 ^ 32 :=
  sizesAddUp_of_checked rfl (decryptInto_avoids side privateKey cipher d aadPrefix) rfl

/-- The announced size passes the check of the decryption, whether it wrapped or not. -/
lemma dataBuffer_eq (n : ℕ) :
    dataBuffer (ethSgxCrypto L side) n =
      if n % 2 ^ 32 < 12 then .throws else .ok (UInt32.ofNat n - 12 - 64 - 16) := by
  have hn : (UInt32.ofNat n).toNat = n % 2 ^ 32 := UInt32.toNat_ofNat'
  have hlt : UInt32.ofNat n < initializationVectorSize ↔ n % 2 ^ 32 < 12 := by
    rw [UInt32.lt_iff_toNat_lt, hn]
    rfl
  have hback : getCipherSize (UInt32.ofNat n - 12 - 64 - 16) + 64 + 16 = UInt32.ofNat n := by
    rw [getCipherSize, initializationVectorSize]
    generalize UInt32.ofNat n = x
    grind
  change (getDataSize (UInt32.ofNat n) >>= fun dataSize => pure (dataSize - 64 - 16)) >>= _ = _
  rw [getDataSize]
  split_ifs with h1 h2 h2
  · rfl
  · exact absurd (hlt.1 h1) h2
  · exact absurd (hlt.2 h2) h1
  · change (if getCipherSize (UInt32.ofNat n - 12 - 64 - 16) + 64 + 16 ≠ UInt32.ofNat n then _
      else _) = _
    rw [if_neg (not_not.2 hback)]
    rfl

lemma bufferFits_iff (cipher : Bytes) :
    BufferFits (ethSgxCrypto L side) cipher ↔
      cipher.length % 2 ^ 32 < 12 ∨ 92 ≤ cipher.length ∧ cipher.length < 2 ^ 32 + 92 := by
  have hsize : (UInt32.ofNat cipher.length - 12 - 64 - 16).toNat =
      (cipher.length + (2 ^ 32 - 92)) % 2 ^ 32 := by
    have h12 : (12 : UInt32).toNat = 12 := rfl
    have h64 : (64 : UInt32).toNat = 64 := rfl
    have h16 : (16 : UInt32).toNat = 16 := rfl
    rw [UInt32.toNat_sub, UInt32.toNat_sub, UInt32.toNat_sub, UInt32.toNat_ofNat', h12, h64, h16]
    omega
  rw [BufferFits, dataBuffer_eq]
  split_ifs with hshort
  · exact ⟨fun _ => .inl hshort, fun _ dataSize hdata => nomatch hdata⟩
  · constructor
    · intro h
      obtain ⟨hlong, hn⟩ := h _ rfl
      rw [hsize] at hn
      omega
    · intro h dataSize hdata
      cases hdata
      rw [hsize]
      omega

/-- The sizes of an envelope against those of the natural numbers: the sum in the size checks
is right up to `2 ^ 32`, and the announced data buffer is right when the cipher is no shorter
than an envelope and what it holds besides has a size of 32 bits. -/
theorem sizes_iff (L : Library) (side : Side) :
    (∀ (publicKey data cipher : Bytes) (dataSize aadPrefix cipherSize : UInt32) (rng : Rng),
      SizesAddUp (encryptMessageWithPrefix (ethSgxCrypto L side) publicKey data dataSize aadPrefix
          cipher cipherSize rng) .aesInvalidCipherSize dataSize cipherSize ↔
        dataSize.toNat + 92 ≠ cipherSize.toNat + 2 ^ 32) ∧
    (∀ (privateKey cipher : Bytes) (cipherSize dataSize aadPrefix : UInt32),
      SizesAddUp (decryptMessageWithPrefix (ethSgxCrypto L side) privateKey cipher cipherSize
          dataSize aadPrefix) .aesInvalidDataSize dataSize cipherSize ↔
        dataSize.toNat + 92 ≠ cipherSize.toNat + 2 ^ 32) ∧
    ∀ cipher : Bytes, BufferFits (ethSgxCrypto L side) cipher ↔
      cipher.length % 2 ^ 32 < 12 ∨ 92 ≤ cipher.length ∧ cipher.length < 2 ^ 32 + 92 :=
  ⟨fun publicKey data cipher dataSize aadPrefix cipherSize rng =>
      encrypt_sizesAddUp side publicKey data dataSize aadPrefix cipher cipherSize rng,
    fun privateKey cipher cipherSize dataSize aadPrefix =>
      decrypt_sizesAddUp side privateKey cipher cipherSize dataSize aadPrefix,
    bufferFits_iff side⟩

/-- A cipher too short for a public key and a tag is read far outside. -/
theorem decryptMessage_overruns (privateKey : Bytes) {cipher : Bytes} (aadPrefix : UInt32)
    (hiv : 12 ≤ cipher.length) (hshort : cipher.length < 80) :
    decryptMessage (ethSgxCrypto L side) privateKey cipher aadPrefix = .overruns := by
  have hoffset : (getCipherSize (UInt32.ofNat cipher.length - 12 - 64 - 16)).toNat =
      cipher.length + (2 ^ 32 - 80) := by
    have h12 : (12 : UInt32).toNat = 12 := rfl
    have h64 : (64 : UInt32).toNat = 64 := rfl
    have h16 : (16 : UInt32).toNat = 16 := rfl
    rw [getCipherSize, initializationVectorSize, UInt32.toNat_add, UInt32.toNat_sub,
      UInt32.toNat_sub, UInt32.toNat_sub, UInt32.toNat_ofNat', h12, h64, h16]
    omega
  have hpeek : peek cipher (cipher.length + (2 ^ 32 - 80)) 64 = none := peek_outside (by omega)
  rw [decryptMessage_eq, dataBuffer_eq, if_neg (by omega), ok_bind]
  change access (peek cipher
    (getCipherSize (UInt32.ofNat cipher.length - 12 - 64 - 16)).toNat 64) >>= _ = _
  rw [hoffset, hpeek]
  rfl

end Checks

/-- `data_size` with `2 ^ 32 - 92` bytes passes for an empty cipher, and a cipher of an IV alone
is decrypted into a buffer of `2 ^ 32 - 80` bytes. -/
theorem sizes_fail :
    ¬ SizesAddUp (encryptMessageWithPrefix (ethSgxCrypto plainLibrary .core) plainKeyPair.pkey []
        4294967204 1 [] 0 plainDraws) .aesInvalidCipherSize 4294967204 0 ∧
      ¬ SizesAddUp (decryptMessageWithPrefix (ethSgxCrypto plainLibrary .coreT) plainKeyPair.skey []
        0 4294967204 1) .aesInvalidDataSize 4294967204 0 ∧
      dataBuffer (ethSgxCrypto plainLibrary .coreT) 12 = .ok 4294967216 ∧
      decryptMessage (ethSgxCrypto plainLibrary .coreT) plainKeyPair.skey (List.replicate 12 0) 1 =
        .overruns ∧
      ¬ BufferFits (ethSgxCrypto plainLibrary .coreT) (List.replicate 12 0) := by
  refine ⟨?_, ?_, by decide, decryptMessage_overruns .coreT _ 1 (by decide) (by decide), ?_⟩
  · rw [encrypt_sizesAddUp]
    decide
  · rw [decrypt_sizesAddUp]
    decide
  · rw [bufferFits_iff]
    decide

end PrivacyComputing.Envelope
