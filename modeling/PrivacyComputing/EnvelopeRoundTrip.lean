import PrivacyComputing.Envelope

/-! Opening what was sealed: every side's envelope is one and the same byte string, and each
side opens it under the prefix it was sealed with and no other. -/
namespace PrivacyComputing.Envelope
open BufferWindow LittleEndian Effect

/-- What the libraries are assumed to do. The curve commutes, AES-GCM opens what it sealed and
rejects it when the four bytes of the prefix are changed in the associated data, and the EVP
calls take the counts that are not negative. -/
structure Library.Lawful (L : Library) : Prop where
  create_of_verify : ∀ skey, L.seckeyVerify skey = true →
    ∃ pubkey, L.pubkeyCreate skey = some pubkey
  pubkey_size : ∀ skey pubkey, L.pubkeyCreate skey = some pubkey → pubkey.length = 64
  ecdh_commutes : ∀ a b pa pb, L.pubkeyCreate a = some pa → L.pubkeyCreate b = some pb →
    ∃ point, L.ecdhPoint pb a = some point ∧ L.ecdhPoint pa b = some point
  cmac_size : ∀ key message, (L.cmac key message).length = 16
  body_size : ∀ key iv aad data, (L.gcmEncrypt key iv aad data).1.length = data.length
  tag_size : ∀ key iv aad data, (L.gcmEncrypt key iv aad data).2.length = 16
  decrypt_encrypt : ∀ key iv aad data, L.gcmDecrypt key iv aad (L.gcmEncrypt key iv aad data).1
    (L.gcmEncrypt key iv aad data).2 = some data
  decrypt_changed : ∀ key iv aad aad' data, aad'.take aadMacPrefixPos = aad.take aadMacPrefixPos →
    aad'.drop (aadMacPrefixPos + 4) = aad.drop (aadMacPrefixPos + 4) →
    aad'.length = aad.length → aad' ≠ aad →
    L.gcmDecrypt key iv aad' (L.gcmEncrypt key iv aad data).1
      (L.gcmEncrypt key iv aad data).2 = none
  update_iff : ∀ inl, L.evpUpdate inl = true ↔ 0 ≤ inl

/-- A key pair of the pack. -/
structure KeyPair (L : Library) where
  skey : Bytes
  pkey : Bytes
  size : skey.length = 32
  made : generatePkeyFromSkey L skey = .ok pkey

section Pieces
variable {L : Library}

lemma changePubkeyEndian_length (pkey : Bytes) :
    (changePubkeyEndian pkey).length = pkey.length := by
  simp only [changePubkeyEndian, List.length_append, List.length_reverse, List.length_take,
    List.length_drop]
  omega

lemma changePubkeyEndian_twice {pkey : Bytes} (h : pkey.length = 64) :
    changePubkeyEndian (changePubkeyEndian pkey) = pkey := by
  have hhalf : (pkey.take 32).reverse.length = 32 := by simp [h]
  have hchange : changePubkeyEndian pkey = (pkey.take 32).reverse ++ (pkey.drop 32).reverse := by
    rw [changePubkeyEndian, h]
  rw [changePubkeyEndian, changePubkeyEndian_length, h, hchange, List.take_left' hhalf,
    List.drop_left' hhalf, List.reverse_reverse, List.reverse_reverse, List.take_append_drop]

lemma generatePkeyFromSkey_ok {skey pkey : Bytes} (h : generatePkeyFromSkey L skey = .ok pkey) :
    ∃ pubkey, L.pubkeyCreate skey = some pubkey ∧ pkey = changePubkeyEndian pubkey := by
  unfold generatePkeyFromSkey at h
  split at h
  · rename_i pubkey hpub
    cases h
    exact ⟨pubkey, hpub, rfl⟩
  · cases h

lemma genPrivateKeyCore_ok {counter : ℕ} {rng rest : Rng} {g : Bytes}
    (h : genPrivateKeyCore L counter rng = .ok (g, rest)) :
    L.seckeyVerify g = true ∧ g.length = 32 := by
  induction rng generalizing counter with
  | nil => cases h
  | cons drawn rng ih =>
    cases drawn with
    | error e => cases h
    | ok drawn =>
      unfold genPrivateKeyCore at h
      split_ifs at h with hcounter hverify
      · cases h
        exact ⟨hverify, CryptoPack.fit_length _ _⟩
      · exact ih h

lemma genPrivateKeyCoreT_ok {rng rest : Rng} {g : Bytes}
    (h : genPrivateKeyCoreT L rng = .ok (g, rest)) :
    L.seckeyVerify g = true ∧ g.length = 32 := by
  induction rng with
  | nil => cases h
  | cons drawn rng ih =>
    cases drawn with
    | error e => cases h
    | ok drawn =>
      unfold genPrivateKeyCoreT at h
      split_ifs at h with hverify
      · cases h
        exact ⟨hverify, CryptoPack.fit_length _ _⟩
      · exact ih h

/-- A generated key is one the curve accepts. -/
lemma genPrivateKey_ok {side : Side} {rng rest : Rng} {g : Bytes}
    (h : genPrivateKey L side rng = .ok (g, rest)) :
    L.seckeyVerify g = true ∧ g.length = 32 := by
  cases side with
  | core => exact genPrivateKeyCore_ok h
  | coreT => exact genPrivateKeyCoreT_ok h

/-- Both sides derive the key from the same bytes. -/
lemma derivationBuffer_eq (side : Side) :
    derivationBuffer keyManagerLabel side = .ok ((0x01 :: keyManagerLabel) ++ [0, 0x80, 0]) := by
  cases side with
  | core => rfl
  | coreT => rfl

/-- The key of a point of the curve. -/
def keyOf (L : Library) (point : Bytes × Bytes) : Bytes :=
  L.cmac (L.cmac cmacKey (ecdhHashFunctionSha256 L point.1 point.2))
    ((0x01 :: keyManagerLabel) ++ [0, 0x80, 0])

lemma deriveKey_eq (side : Side) (point : Bytes × Bytes) :
    deriveKey L side (ecdhHashFunctionSha256 L point.1 point.2) keyManagerLabel =
      .ok (keyOf L point) := by
  rw [deriveKey, derivationBuffer_eq]
  rfl

lemma ecdhSharedKey_eq (side : Side) {skey pubkey : Bytes} {point : Bytes × Bytes}
    (hs : skey.length = 32) (hp : pubkey.length = 64)
    (hpoint : L.ecdhPoint pubkey skey = some point) :
    ecdhSharedKey L side skey (changePubkeyEndian pubkey) 16 = .ok (keyOf L point) := by
  have hlen : (changePubkeyEndian pubkey).length = 64 := by
    rw [changePubkeyEndian_length, hp]
  rw [ecdhSharedKey, if_neg (by simp), if_neg (by simp [hs]), if_neg (by simp [hlen]),
    changePubkeyEndian_twice hp, hpoint]
  exact deriveKey_eq side point

/-- The associated data under a prefix. -/
def aadOf (aadPrefix : UInt32) : Bytes :=
  aadMacText.take aadMacPrefixPos ++ encode 4 aadPrefix.toNat ++
    aadMacText.drop (aadMacPrefixPos + 4)

lemma aadMacText_length : aadMacText.length = 64 := CryptoPack.fit_length _ _

lemma macText_eq (aadPrefix : UInt32) : macText aadPrefix = .ok (aadOf aadPrefix) := by
  rw [macText, poke, if_pos (by simp [aadMacText_length, aadMacPrefixPos]), encode_length]
  rfl

lemma aadOf_length (aadPrefix : UInt32) : (aadOf aadPrefix).length = 64 := by
  simp [aadOf, aadMacText_length, aadMacPrefixPos]

lemma aadOf_before (aadPrefix : UInt32) :
    (aadOf aadPrefix).take aadMacPrefixPos = aadMacText.take aadMacPrefixPos := by
  have hlen : (aadMacText.take aadMacPrefixPos).length = aadMacPrefixPos := by
    simp [aadMacText_length, aadMacPrefixPos]
  rw [aadOf, List.append_assoc, List.take_left' hlen]

lemma aadOf_after (aadPrefix : UInt32) :
    (aadOf aadPrefix).drop (aadMacPrefixPos + 4) = aadMacText.drop (aadMacPrefixPos + 4) := by
  have hlen : (aadMacText.take aadMacPrefixPos ++ encode 4 aadPrefix.toNat).length =
      aadMacPrefixPos + 4 := by
    simp [aadMacText_length, aadMacPrefixPos]
  rw [aadOf, List.drop_left' hlen]

/-- The prefix can be read back from the associated data. -/
lemma aadOf_injective : Function.Injective aadOf := by
  intro p p' h
  have hlen : (aadMacText.take aadMacPrefixPos ++ encode 4 p.toNat).length =
      (aadMacText.take aadMacPrefixPos ++ encode 4 p'.toNat).length := by
    simp
  have hencode : encode 4 p.toNat = encode 4 p'.toNat :=
    List.append_cancel_left (List.append_inj h hlen).1
  have hdecode := congrArg decode hencode
  rw [decode_encode_of_lt p.toNat_lt, decode_encode_of_lt p'.toNat_lt] at hdecode
  exact UInt32.toNat_inj.1 hdecode

lemma gcmOpen_sealed (hL : L.Lawful) (key iv data : Bytes) (aadPrefix : UInt32) (size : UInt32)
    (side : Side) :
    gcmOpen L key iv (aadOf aadPrefix) (L.gcmEncrypt key iv (aadOf aadPrefix) data).1
        (L.gcmEncrypt key iv (aadOf aadPrefix) data).2 size side =
      if side = .core ∧ L.evpUpdate size.toInt32 = false then .throws else .ok data := by
  cases side with
  | core =>
    rw [gcmOpen, hL.decrypt_encrypt]
    cases L.evpUpdate size.toInt32 <;> simp
  | coreT =>
    rw [gcmOpen, hL.decrypt_encrypt]
    simp

/-- Under another prefix it does not open. -/
lemma gcmOpen_changed (hL : L.Lawful) (key iv data : Bytes) {p p' : UInt32} (hp : p' ≠ p)
    (size : UInt32) (side : Side) (m : Bytes) :
    gcmOpen L key iv (aadOf p') (L.gcmEncrypt key iv (aadOf p) data).1
      (L.gcmEncrypt key iv (aadOf p) data).2 size side ≠ .ok m := by
  have hnone := hL.decrypt_changed key iv (aadOf p) (aadOf p') data
    (by rw [aadOf_before, aadOf_before]) (by rw [aadOf_after, aadOf_after])
    (by rw [aadOf_length, aadOf_length]) (fun h => hp (aadOf_injective h))
  cases side with
  | core =>
    rw [gcmOpen, hnone]
    split_ifs <;> simp
  | coreT =>
    rw [gcmOpen, hnone]
    simp

end Pieces

section Sizes

lemma toNat_ofNat_length {n : ℕ} (h : n + 92 < 2 ^ 32) : (UInt32.ofNat n).toNat = n := by
  rw [UInt32.toNat_ofNat']
  omega

lemma getCipherSize_toNat {n : ℕ} (h : n + 92 < 2 ^ 32) :
    (getCipherSize (UInt32.ofNat n)).toNat = n + 12 := by
  rw [getCipherSize, UInt32.toNat_add, toNat_ofNat_length h]
  exact Nat.mod_eq_of_lt (by simp [initializationVectorSize]; omega)

variable {L : Library}

/-- The buffer of an envelope has room for the IV, the public key and the tag. -/
lemma getEncryptMessageSize_toNat (side : Side) {n : ℕ} (h : n + 92 < 2 ^ 32) :
    (getEncryptMessageSizeWithPrefix (ethSgxCrypto L side) (UInt32.ofNat n)).toNat = n + 92 := by
  change (getCipherSize (UInt32.ofNat n) + 64 + 16).toNat = n + 92
  have h64 : (64 : UInt32).toNat = 64 := rfl
  have h16 : (16 : UInt32).toNat = 16 := rfl
  rw [UInt32.toNat_add, UInt32.toNat_add, getCipherSize_toNat h, h64, h16]
  omega

/-- The buffer of an opened message has the size of the message. -/
lemma getDecryptMessageSize_eq (side : Side) {n : ℕ} (h : n + 92 < 2 ^ 32) :
    getDecryptMessageSizeWithPrefix (ethSgxCrypto L side) (UInt32.ofNat (n + 92)) =
      .ok (UInt32.ofNat n) := by
  have hn : (UInt32.ofNat (n + 92)).toNat = n + 92 := by
    rw [UInt32.toNat_ofNat']
    omega
  have h12 : ¬ UInt32.ofNat (n + 92) < initializationVectorSize := by
    rw [UInt32.lt_iff_toNat_lt, hn]
    simp [initializationVectorSize]
  have hsize : UInt32.ofNat (n + 92) - initializationVectorSize - 64 - 16 = UInt32.ofNat n := by
    have hadd : UInt32.ofNat (n + 92) = UInt32.ofNat n + 16 + 64 + 12 := by
      rw [UInt32.ofNat_add, UInt32.add_assoc, UInt32.add_assoc]
      rfl
    rw [hadd, initializationVectorSize, UInt32.add_sub_cancel, UInt32.add_sub_cancel,
      UInt32.add_sub_cancel]
  change (getDataSize (UInt32.ofNat (n + 92)) >>= fun dataSize => pure (dataSize - 64 - 16)) = _
  rw [getDataSize, if_neg h12, ok_bind, hsize, pure_eq]

end Sizes

/-- The envelope of a message: the ciphertext, the IV, the ephemeral public key, the tag. -/
def envelope (L : Library) (gpkey key iv : Bytes) (aadPrefix : UInt32) (m : Bytes) : Bytes :=
  (L.gcmEncrypt key iv (aadOf aadPrefix) m).1 ++ iv ++ gpkey ++
    (L.gcmEncrypt key iv (aadOf aadPrefix) m).2

section Layout
variable {L : Library} {gpkey key iv m : Bytes}

lemma envelope_length (hL : L.Lawful) (hiv : iv.length = 12) (hg : gpkey.length = 64)
    (aadPrefix : UInt32) : (envelope L gpkey key iv aadPrefix m).length = m.length + 92 := by
  simp only [envelope, List.length_append, hL.body_size, hL.tag_size, hiv, hg]

lemma gcmSeal_eq (key iv aad data : Bytes) (size : UInt32) (side : Side) :
    gcmSeal L key iv aad data size side =
      if side = .core ∧ L.evpUpdate size.toInt32 = false then .throws
      else .ok (L.gcmEncrypt key iv aad data) := by
  cases side with
  | core =>
    rw [gcmSeal]
    cases L.evpUpdate size.toInt32 <;> simp
  | coreT => simp [gcmSeal]

/-- The cipher fills the window before the public key, and the tag the window behind it. -/
lemma encryptWithPrefix_eq (hL : L.Lawful) (side : Side) {z0 z1 z2 drawn : Bytes} {rest : Rng}
    (hm : m.length + 92 < 2 ^ 32) (hkey : key.length = 16) (hg : gpkey.length = 64)
    (h0 : z0.length = m.length) (h1 : z1.length = 12) (h2 : z2.length = 16)
    (aadPrefix : UInt32) :
    encryptWithPrefix L side key m (UInt32.ofNat m.length) aadPrefix (z0 ++ z1 ++ gpkey ++ z2)
        (getCipherSize (UInt32.ofNat m.length)) (m.length + 12 + 64) (.ok drawn :: rest) =
      if side = .core ∧ L.evpUpdate (UInt32.ofNat m.length).toInt32 = false then .throws
      else .ok (envelope L gpkey key (CryptoPack.fit 12 drawn) aadPrefix m) := by
  have hsize := toNat_ofNat_length hm
  have hfit : (CryptoPack.fit 12 drawn).length = 12 := CryptoPack.fit_length _ _
  have hiv : poke (z0 ++ z1 ++ gpkey ++ z2) m.length (CryptoPack.fit 12 drawn) =
      some (z0 ++ CryptoPack.fit 12 drawn ++ (gpkey ++ z2)) := by
    rw [List.append_assoc]
    exact poke_append _ _ _ h0 (by rw [h1, hfit])
  have hdraw : drawIv side (.ok drawn :: rest) = .ok (CryptoPack.fit 12 drawn) := by
    cases side <;> rfl
  have hbody : poke (z0 ++ CryptoPack.fit 12 drawn ++ (gpkey ++ z2)) 0
        (L.gcmEncrypt key (CryptoPack.fit 12 drawn) (aadOf aadPrefix) m).1 =
      some ((L.gcmEncrypt key (CryptoPack.fit 12 drawn) (aadOf aadPrefix) m).1 ++
        (CryptoPack.fit 12 drawn ++ (gpkey ++ z2))) := by
    have hroom : z0.length =
        (L.gcmEncrypt key (CryptoPack.fit 12 drawn) (aadOf aadPrefix) m).1.length := by
      rw [h0, hL.body_size]
    simpa using poke_append [] z0 (CryptoPack.fit 12 drawn ++ (gpkey ++ z2)) rfl hroom
  have htag : poke ((L.gcmEncrypt key (CryptoPack.fit 12 drawn) (aadOf aadPrefix) m).1 ++
        (CryptoPack.fit 12 drawn ++ (gpkey ++ z2))) (m.length + 12 + 64)
        (L.gcmEncrypt key (CryptoPack.fit 12 drawn) (aadOf aadPrefix) m).2 =
      some (envelope L gpkey key (CryptoPack.fit 12 drawn) aadPrefix m) := by
    have hbefore : ((L.gcmEncrypt key (CryptoPack.fit 12 drawn) (aadOf aadPrefix) m).1 ++
        CryptoPack.fit 12 drawn ++ gpkey).length = m.length + 12 + 64 := by
      simp only [List.length_append, hL.body_size, hfit, hg]
    have hroom : z2.length =
        (L.gcmEncrypt key (CryptoPack.fit 12 drawn) (aadOf aadPrefix) m).2.length := by
      rw [h2, hL.tag_size]
    simpa [envelope] using poke_append _ z2 [] hbefore hroom
  rw [encryptWithPrefix, if_neg (by simp [hkey]), if_neg (by simp [getCipherSize]), macText_eq,
    ok_bind, hdraw, ok_bind, hsize, hiv, access_some, ok_bind, peek_whole, access_some, ok_bind,
    gcmSeal_eq]
  split_ifs with hthrow
  · rfl
  · simp only [ok_bind, hbody, access_some, htag]

/-- The windows of an envelope are read back. -/
lemma decryptWithPrefix_envelope (hL : L.Lawful) (side : Side) (hm : m.length + 92 < 2 ^ 32)
    (hkey : key.length = 16) (hg : gpkey.length = 64) (hiv : iv.length = 12) (p p' : UInt32) :
    decryptWithPrefix L side key (envelope L gpkey key iv p m)
        (getCipherSize (UInt32.ofNat m.length)) p' (UInt32.ofNat m.length) (m.length + 12 + 64) =
      gcmOpen L key iv (aadOf p') (L.gcmEncrypt key iv (aadOf p) m).1
        (L.gcmEncrypt key iv (aadOf p) m).2 (UInt32.ofNat m.length) side := by
  have hsize := toNat_ofNat_length hm
  have hbody := hL.body_size key iv (aadOf p) m
  have htag := hL.tag_size key iv (aadOf p) m
  have h12 : initializationVectorSize.toNat = 12 := rfl
  have hpeekIv : peek (envelope L gpkey key iv p m) m.length 12 = some iv := by
    rw [envelope, List.append_assoc]
    exact peek_append _ _ _ hbody hiv
  have hpeekBody : peek (envelope L gpkey key iv p m) 0 m.length =
      some (L.gcmEncrypt key iv (aadOf p) m).1 := by
    have h := peek_append [] _ (iv ++ gpkey ++ (L.gcmEncrypt key iv (aadOf p) m).2) rfl hbody
    simpa [envelope] using h
  have hpeekTag : peek (envelope L gpkey key iv p m) (m.length + 12 + 64) 16 =
      some (L.gcmEncrypt key iv (aadOf p) m).2 := by
    have hbefore : ((L.gcmEncrypt key iv (aadOf p) m).1 ++ iv ++ gpkey).length =
        m.length + 12 + 64 := by
      simp only [List.length_append, hbody, hiv, hg]
    simpa [envelope] using peek_append _ _ [] hbefore htag
  rw [decryptWithPrefix, if_neg (by simp [hkey]), if_neg (by simp [getCipherSize]), macText_eq,
    ok_bind, hsize, h12, hpeekIv, access_some, ok_bind, hpeekBody, access_some, ok_bind,
    hpeekTag, access_some, ok_bind]

lemma peek_envelope_pkey (hL : L.Lawful) (hg : gpkey.length = 64) (hiv : iv.length = 12)
    (p : UInt32) : peek (envelope L gpkey key iv p m) (m.length + 12) 64 = some gpkey := by
  have hbefore : ((L.gcmEncrypt key iv (aadOf p) m).1 ++ iv).length = m.length + 12 := by
    simp only [List.length_append, hL.body_size, hiv]
  exact peek_append _ _ _ hbefore hg

end Layout

/-- The size of a message fits the `int` count of the EVP calls, where there are any. -/
def CountFits (side : Side) (size : ℕ) : Prop := side = .core → size < 2 ^ 31

/-- An ephemeral key and the key pair of a recipient agree on a point of the curve. -/
structure Agreement (L : Library) (k : KeyPair L) (gskey : Bytes) where
  gpub : Bytes
  pub : Bytes
  point : Bytes × Bytes
  gskey_size : gskey.length = 32
  gpub_size : gpub.length = 64
  pub_size : pub.length = 64
  gpub_made : L.pubkeyCreate gskey = some gpub
  pkey_eq : k.pkey = changePubkeyEndian pub
  sent : L.ecdhPoint pub gskey = some point
  received : L.ecdhPoint gpub k.skey = some point

section Message
variable {L : Library} {k : KeyPair L} {gskey : Bytes}

lemma agreement (hL : L.Lawful) (k : KeyPair L) (hverify : L.seckeyVerify gskey = true)
    (hsize : gskey.length = 32) : Nonempty (Agreement L k gskey) := by
  obtain ⟨gpub, hgpub⟩ := hL.create_of_verify gskey hverify
  obtain ⟨pub, hpub, hk⟩ := generatePkeyFromSkey_ok k.made
  obtain ⟨point, hsent, hreceived⟩ := hL.ecdh_commutes gskey k.skey gpub pub hgpub hpub
  exact ⟨⟨gpub, pub, point, hsize, hL.pubkey_size _ _ hgpub, hL.pubkey_size _ _ hpub, hgpub, hk,
    hsent, hreceived⟩⟩

lemma evpUpdate_iff (hL : L.Lawful) {n : ℕ} (hn : n + 92 < 2 ^ 32) :
    L.evpUpdate (UInt32.ofNat n).toInt32 = true ↔ n < 2 ^ 31 := by
  have hzero : (0 : Int32).toInt = 0 := rfl
  have hint : (UInt32.ofNat n).toInt32.toInt = ((UInt32.ofNat n).toNat : ℤ).bmod (2 ^ 32) :=
    BitVec.toInt_eq_toNat_bmod _
  rw [hL.update_iff, Int32.le_iff_toInt_le, hzero, hint, toNat_ofNat_length hn, Int.bmod_def]
  split_ifs <;> omega

lemma countFits_iff (hL : L.Lawful) {n : ℕ} (hn : n + 92 < 2 ^ 32) (side : Side) :
    CountFits side n ↔ ¬ (side = .core ∧ L.evpUpdate (UInt32.ofNat n).toInt32 = false) := by
  rw [CountFits, ← evpUpdate_iff hL hn]
  simp

/-- The envelope that an ephemeral key and a drawn IV lead to. -/
def Agreement.sealed (a : Agreement L k gskey) (drawn : Bytes) (aadPrefix : UInt32) (m : Bytes) :
    Bytes :=
  envelope L (changePubkeyEndian a.gpub) (keyOf L a.point) (CryptoPack.fit 12 drawn) aadPrefix m

variable {m drawn : Bytes} {rng rest : Rng}

lemma replicate_windows (n : ℕ) : List.replicate (n + 92) (0 : UInt8) =
    (List.replicate n 0 ++ List.replicate 12 0) ++ List.replicate 64 0 ++ List.replicate 16 0 := by
  simp only [← List.replicate_add]

/-- What encryption makes of a message: the same envelope on both sides, if the host's count
fits. -/
theorem encryptMessage_eq (hL : L.Lawful) (a : Agreement L k gskey)
    (hm : m.length + 92 < 2 ^ 32) (side : Side)
    (hrng : genPrivateKey L side rng = .ok (gskey, .ok drawn :: rest)) (p : UInt32) :
    encryptMessage (ethSgxCrypto L side) k.pkey m p rng =
      if side = .core ∧ L.evpUpdate (UInt32.ofNat m.length).toInt32 = false then .throws
      else .ok (a.sealed drawn p m) := by
  have hchange : (changePubkeyEndian a.gpub).length = 64 := by
    rw [changePubkeyEndian_length, a.gpub_size]
  have hgen : generatePkeyFromSkey L gskey = .ok (changePubkeyEndian a.gpub) := by
    rw [generatePkeyFromSkey, a.gpub_made]
  have hpoke : poke (List.replicate (m.length + 92) (0 : UInt8)) (m.length + 12)
        (changePubkeyEndian a.gpub) =
      some ((List.replicate m.length 0 ++ List.replicate 12 0) ++ changePubkeyEndian a.gpub ++
        List.replicate 16 0) := by
    rw [replicate_windows]
    exact poke_append _ _ _ (by simp) (by simp [hchange])
  have hshared : ecdhSharedKey L side gskey k.pkey 16 = .ok (keyOf L a.point) := by
    rw [a.pkey_eq]
    exact ecdhSharedKey_eq side a.gskey_size a.pub_size a.sent
  have hsize := getEncryptMessageSize_toNat (L := L) side hm
  have hcipher := getCipherSize_toNat hm
  change (if getCipherSize (UInt32.ofNat m.length) + 64 + 16 ≠
      getCipherSize (UInt32.ofNat m.length) + 64 + 16 then _ else
    encryptInto _ _ _ _ _ _ _) = _
  rw [if_neg (by simp)]
  change genPrivateKey L side rng >>= _ = _
  rw [hrng, ok_bind]
  change generatePkeyFromSkey L gskey >>= _ = _
  rw [hgen, ok_bind, hsize]
  change access (poke _ (getCipherSize (UInt32.ofNat m.length)).toNat _) >>= _ = _
  rw [hcipher, hpoke, access_some, ok_bind]
  change ecdhSharedKey L side gskey k.pkey 16 >>= _ = _
  rw [hshared, ok_bind]
  change encryptWithPrefix L side _ m _ p _ _
    ((getCipherSize (UInt32.ofNat m.length)).toNat + 64) _ = _
  rw [hcipher]
  exact encryptWithPrefix_eq hL side hm (hL.cmac_size _ _) hchange List.length_replicate
    List.length_replicate List.length_replicate p

/-- Decryption comes down to the opening of the sealed bytes. -/
theorem decryptMessage_sealed (hL : L.Lawful) (a : Agreement L k gskey) (drawn : Bytes)
    (hm : m.length + 92 < 2 ^ 32) (side : Side) (p p' : UInt32) :
    decryptMessage (ethSgxCrypto L side) k.skey (a.sealed drawn p m) p' =
      gcmOpen L (keyOf L a.point) (CryptoPack.fit 12 drawn) (aadOf p')
        (L.gcmEncrypt (keyOf L a.point) (CryptoPack.fit 12 drawn) (aadOf p) m).1
        (L.gcmEncrypt (keyOf L a.point) (CryptoPack.fit 12 drawn) (aadOf p) m).2
        (UInt32.ofNat m.length) side := by
  have hchange : (changePubkeyEndian a.gpub).length = 64 := by
    rw [changePubkeyEndian_length, a.gpub_size]
  have hiv : (CryptoPack.fit 12 drawn).length = 12 := CryptoPack.fit_length _ _
  have hlen : (a.sealed drawn p m).length = m.length + 92 := envelope_length hL hiv hchange p
  have hcheck : getCipherSize (UInt32.ofNat m.length) + 64 + 16 = UInt32.ofNat (m.length + 92) := by
    rw [← UInt32.toNat_inj, UInt32.toNat_ofNat']
    have hsize := getEncryptMessageSize_toNat (L := L) side hm
    change (getCipherSize (UInt32.ofNat m.length) + 64 + 16).toNat = _ at hsize
    omega
  have hshared : ecdhSharedKey L side k.skey (changePubkeyEndian a.gpub) 16 =
      .ok (keyOf L a.point) :=
    ecdhSharedKey_eq side k.size a.gpub_size a.received
  rw [decryptMessage, hlen, getDecryptMessageSize_eq side hm, ok_bind]
  change (if getCipherSize (UInt32.ofNat m.length) + 64 + 16 ≠ UInt32.ofNat (m.length + 92) then _
    else decryptInto _ _ _ _ _) = _
  rw [if_neg (by simp [hcheck])]
  change access (peek (a.sealed drawn p m) (getCipherSize (UInt32.ofNat m.length)).toNat 64) >>= _
    = _
  rw [getCipherSize_toNat hm, Agreement.sealed,
    peek_envelope_pkey hL hchange hiv p, access_some, ok_bind]
  change ecdhSharedKey L side k.skey (changePubkeyEndian a.gpub) 16 >>= _ = _
  rw [hshared, ok_bind]
  change decryptWithPrefix L side _ _ _ p' _
    ((getCipherSize (UInt32.ofNat m.length)).toNat + 64) = _
  rw [getCipherSize_toNat hm]
  exact decryptWithPrefix_envelope hL side hm (hL.cmac_size _ _) hchange hiv p p'

/-- A message sealed on one side and opened on the other: the buffers have the sizes that were
announced, and the message comes back under the prefix it was sealed with and no other. -/
def RoundTrip (k : KeyPair L) (sealer opener : Side) (rng : Rng) (p : UInt32) (m : Bytes) : Prop :=
  ∃ cipher, encryptMessage (ethSgxCrypto L sealer) k.pkey m p rng = .ok cipher ∧
    cipher.length =
      (getEncryptMessageSizeWithPrefix (ethSgxCrypto L sealer) (UInt32.ofNat m.length)).toNat ∧
    cipher.length = m.length + 92 ∧
    getDecryptMessageSizeWithPrefix (ethSgxCrypto L opener) (UInt32.ofNat cipher.length) =
      .ok (UInt32.ofNat m.length) ∧
    decryptMessage (ethSgxCrypto L opener) k.skey cipher p = .ok m ∧
    ∀ p' m', decryptMessage (ethSgxCrypto L opener) k.skey cipher p' = .ok m' → p' = p

lemma RoundTrip.sealer_fits (hL : L.Lawful) (a : Agreement L k gskey) {sealer opener : Side}
    {p : UInt32} (hm : m.length + 92 < 2 ^ 32)
    (hrng : genPrivateKey L sealer rng = .ok (gskey, .ok drawn :: rest))
    (h : RoundTrip k sealer opener rng p m) : CountFits sealer m.length := by
  obtain ⟨cipher, hsealed, -⟩ := h
  rw [countFits_iff hL hm]
  intro hthrow
  rw [encryptMessage_eq hL a hm sealer hrng, if_pos hthrow] at hsealed
  cases hsealed

/-- The round trip succeeds exactly when no host is asked to count above `INT_MAX`. -/
theorem roundTrip_iff_countFits (hL : L.Lawful) (k : KeyPair L) (sealer opener : Side)
    (hrng : genPrivateKey L sealer rng = .ok (gskey, .ok drawn :: rest)) (p : UInt32)
    (hm : m.length < 2 ^ 32 - 92) :
    RoundTrip k sealer opener rng p m ↔
      CountFits sealer m.length ∧ CountFits opener m.length := by
  obtain ⟨hverify, hsize⟩ := genPrivateKey_ok hrng
  obtain ⟨a⟩ := agreement hL k hverify hsize
  have hm' : m.length + 92 < 2 ^ 32 := by omega
  have hchange : (changePubkeyEndian a.gpub).length = 64 := by
    rw [changePubkeyEndian_length, a.gpub_size]
  have hlen : (a.sealed drawn p m).length = m.length + 92 :=
    envelope_length hL (CryptoPack.fit_length _ _) hchange p
  have hseal := encryptMessage_eq hL a hm' sealer hrng p
  have hopen := decryptMessage_sealed hL a drawn hm' opener p
  constructor
  · intro h
    have hfits := h.sealer_fits hL a hm' hrng
    refine ⟨hfits, ?_⟩
    obtain ⟨cipher, hsealed, -, -, -, hback, -⟩ := h
    rw [hseal, if_neg ((countFits_iff hL hm' sealer).1 hfits)] at hsealed
    cases hsealed
    rw [countFits_iff hL hm']
    intro hthrow
    rw [hopen, gcmOpen_sealed hL, if_pos hthrow] at hback
    cases hback
  · rintro ⟨hsealer, hopener⟩
    refine ⟨a.sealed drawn p m, ?_, ?_, hlen, ?_, ?_, ?_⟩
    · rw [hseal, if_neg ((countFits_iff hL hm' sealer).1 hsealer)]
    · rw [hlen, getEncryptMessageSize_toNat sealer hm']
    · rw [hlen, getDecryptMessageSize_eq opener hm']
    · rw [hopen, gcmOpen_sealed hL, if_neg ((countFits_iff hL hm' opener).1 hopener)]
    · intro p' m' hm''
      by_contra hp
      rw [hopen] at hm''
      exact gcmOpen_changed hL _ _ _ hp _ opener m' hm''

end Message

section Plain

/-- The tag of a transparent cipher: the four bytes of the prefix. -/
def plainTag (aad : Bytes) : Bytes := CryptoPack.fit 16 ((aad.drop aadMacPrefixPos).take 4)

/-- A transparent library to evaluate the envelope with. A public key is the private key twice,
two keys agree on their sum, and a cipher text is its data under the tag of its prefix. -/
def plainLibrary : Library where
  seckeyVerify skey := skey.length == 32
  pubkeyCreate skey := if skey.length = 32 then some (skey ++ skey) else none
  ecdhPoint pubkey skey :=
    some (List.zipWith (· + ·) (pubkey.take 32) skey, List.zipWith (· + ·) (pubkey.take 32) skey)
  sha256 := CryptoPack.fit 32
  cmac _ message := CryptoPack.fit 16 message
  gcmEncrypt _ _ aad data := (data, plainTag aad)
  gcmDecrypt _ _ aad cipher tag := if tag = plainTag aad then some cipher else none
  evpUpdate inl := decide (0 ≤ inl)

lemma plainTag_changed {aad aad' : Bytes}
    (hbefore : aad'.take aadMacPrefixPos = aad.take aadMacPrefixPos)
    (hafter : aad'.drop (aadMacPrefixPos + 4) = aad.drop (aadMacPrefixPos + 4))
    (hlen : aad'.length = aad.length) (hne : aad' ≠ aad) : plainTag aad ≠ plainTag aad' := by
  intro htag
  have hwindow : ∀ x : Bytes, x = x.take aadMacPrefixPos ++
      ((x.drop aadMacPrefixPos).take 4 ++ x.drop (aadMacPrefixPos + 4)) := by
    intro x
    rw [← List.drop_drop, List.take_append_drop, List.take_append_drop]
  have hsize : ((aad.drop aadMacPrefixPos).take 4).length =
      ((aad'.drop aadMacPrefixPos).take 4).length := by
    simp [hlen]
  have hfit : ∀ x : Bytes, x.length ≤ 4 → x = (CryptoPack.fit 16 x).take x.length := by
    intro x hx
    rw [CryptoPack.fit, List.take_take, Nat.min_eq_left (by omega), List.take_left]
  have heq : (aad.drop aadMacPrefixPos).take 4 = (aad'.drop aadMacPrefixPos).take 4 := by
    rw [hfit _ (List.length_take_le _ _), hfit ((aad'.drop _).take 4) (List.length_take_le _ _),
      hsize]
    exact congrArg (List.take _) htag
  rw [hwindow aad, hwindow aad', hbefore, hafter, heq] at hne
  exact hne rfl

lemma plainLibrary_lawful : plainLibrary.Lawful where
  create_of_verify skey h := ⟨skey ++ skey, if_pos (by simpa [plainLibrary] using h)⟩
  pubkey_size skey pubkey h := by
    simp only [plainLibrary, Option.ite_none_right_eq_some, Option.some.injEq] at h
    rw [← h.2, List.length_append, h.1]
  ecdh_commutes a b pa pb ha hb := by
    simp only [plainLibrary, Option.ite_none_right_eq_some, Option.some.injEq] at ha hb ⊢
    have hcomm : List.zipWith (· + ·) a b = List.zipWith (· + ·) b a :=
      List.zipWith_comm_of_comm UInt8.add_comm
    refine ⟨_, rfl, ?_⟩
    rw [← ha.2, ← hb.2, List.take_left' ha.1, List.take_left' hb.1, hcomm]
  cmac_size key message := CryptoPack.fit_length _ _
  body_size key iv aad data := rfl
  tag_size key iv aad data := CryptoPack.fit_length _ _
  decrypt_encrypt key iv aad data := if_pos rfl
  decrypt_changed key iv aad aad' data hbefore hafter hlen hne :=
    if_neg (plainTag_changed hbefore hafter hlen hne)
  update_iff inl := by simp [plainLibrary]

def plainKeyPair : KeyPair plainLibrary where
  skey := List.replicate 32 7
  pkey := List.replicate 64 7
  size := rfl
  made := by decide

def plainDraws : Rng := [.ok (List.replicate 32 5), .ok (List.replicate 12 1)]

lemma plainDraws_generate (side : Side) :
    genPrivateKey plainLibrary side plainDraws =
      .ok (List.replicate 32 5, [.ok (List.replicate 12 1)]) := by
  cases side with
  | core => decide
  | coreT => decide

theorem roundTrip_iff_countFits_plain :
    RoundTrip plainKeyPair .core .coreT plainDraws 1 [1, 2, 3] ↔
      CountFits .core 3 ∧ CountFits .coreT 3 :=
  roundTrip_iff_countFits plainLibrary_lawful plainKeyPair .core .coreT
    (plainDraws_generate .core) 1 (by decide)

/-- A host does not seal a message of `2 ^ 31` bytes. -/
theorem roundTrip_fails :
    ∃ m : Bytes, m.length = 2 ^ 31 ∧ m.length < 2 ^ 32 - 92 ∧
      encryptMessage (ethSgxCrypto plainLibrary .core) plainKeyPair.pkey m 1 plainDraws = .throws ∧
      ¬ RoundTrip plainKeyPair .core .coreT plainDraws 1 m := by
  have hlen : (List.replicate (2 ^ 31) (0 : UInt8)).length = 2 ^ 31 := List.length_replicate
  generalize List.replicate (2 ^ 31) (0 : UInt8) = m at hlen
  have hm : m.length + 92 < 2 ^ 32 := by omega
  obtain ⟨hverify, hsize⟩ := genPrivateKey_ok (plainDraws_generate .core)
  obtain ⟨a⟩ := agreement plainLibrary_lawful plainKeyPair hverify hsize
  have hnot : ¬ CountFits .core m.length := fun hfits => by
    have hlt := hfits rfl
    omega
  refine ⟨m, hlen, by omega, ?_, fun h =>
    hnot (h.sealer_fits plainLibrary_lawful a hm (plainDraws_generate .core))⟩
  rw [encryptMessage_eq plainLibrary_lawful a hm .core (plainDraws_generate .core)]
  have hfits := not_not.1 fun hthrow => hnot ((countFits_iff plainLibrary_lawful hm .core).2 hthrow)
  exact if_pos hfits

end Plain

end PrivacyComputing.Envelope
