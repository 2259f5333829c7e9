import PrivacyComputing.CryptoPack
import PrivacyComputing.MemoryLayout

/-! The message envelope: `aes_gcm_impl` over the curve, the cipher and the key agreement of
`eth_sgx_crypto`, with the host's (`core`) and the enclave's (`core_t`) implementation. -/
namespace PrivacyComputing.Envelope
open BufferWindow LittleEndian

/-- The codes of `stx_status.def` and of `sgx_error.h` that an envelope call returns. The first
are kept apart from the second by a bit of their own. -/
inductive EnvelopeError
  | eccInvalidSkeySize | eccSecp256k1EcdhError | eccSecp256k1EcPubkeyCreateError
  | eccInvalidAesKeySize | eccInvalidPkeySize
  | aesInvalidDataSize | aesInvalidCipherSize | aesRandFail
  | invalidData
  | sgx (n : ℕ)
  deriving DecidableEq, Repr

/-- How a call ends. It overruns when it reads or writes outside a buffer. -/
inductive Effect (α : Type)
  | ok (a : α)
  | err (e : EnvelopeError)
  | throws
  | overruns
  deriving DecidableEq, Repr

namespace Effect
variable {α β : Type}

def bind : Effect α → (α → Effect β) → Effect β
  | ok a, f => f a
  | err e, _ => err e
  | throws, _ => throws
  | overruns, _ => overruns

instance : Monad Effect where
  pure := ok
  bind := bind

@[simp] theorem pure_eq (a : α) : (pure a : Effect α) = ok a := rfl
@[simp] theorem ok_bind (a : α) (f : α → Effect β) : (ok a >>= f) = f a := rfl
@[simp] theorem err_bind (e : EnvelopeError) (f : α → Effect β) : (err e >>= f) = err e := rfl
@[simp] theorem throws_bind (f : α → Effect β) : (throws >>= f) = throws := rfl
@[simp] theorem overruns_bind (f : α → Effect β) : (overruns >>= f) = overruns := rfl

/-- An access to memory. -/
def access : Option α → Effect α
  | some a => ok a
  | none => overruns

@[simp] theorem access_some (a : α) : access (some a) = ok a := rfl
@[simp] theorem access_none : access (none : Option α) = overruns := rfl

end Effect

open Effect

/-- The results of the next calls of the random generator; after the last one it fails. -/
abbrev Rng := List (Except ℕ Bytes)

/-- The two implementations, `ypc/core` and `ypc/core_t`. -/
inductive Side
  | core | coreT
  deriving DecidableEq, Repr

/-- The libraries below the two implementations: the curve, SHA-256, AES-CMAC and AES-GCM, and
whether an `EVP_EncryptUpdate` or an `EVP_DecryptUpdate` accepts its `int` count. -/
structure Library where
  seckeyVerify : (skey : Bytes) → Bool
  pubkeyCreate : (skey : Bytes) → Option Bytes
  ecdhPoint : (pubkey skey : Bytes) → Option (Bytes × Bytes)
  sha256 : (message : Bytes) → Bytes
  cmac : (key message : Bytes) → Bytes
  gcmEncrypt : (key iv aad data : Bytes) → Bytes × Bytes
  gcmDecrypt : (key iv aad cipher tag : Bytes) → Option Bytes
  evpUpdate : (inl : Int32) → Bool

def aadMacTextLen : ℕ := 64
def aadMacPrefixPos : ℕ := 24
def initializationVectorSize : UInt32 := 12

/-- `"tech.yeez.key.manager"`. -/
def keyManagerLabel : Bytes :=
  [116, 101, 99, 104, 46, 121, 101, 101, 122, 46, 107, 101, 121, 46, 109, 97, 110, 97, 103, 101,
    114]

/-- `"yeez.tech.stbox"` with its terminator. -/
def cmacKey : Bytes :=
  [121, 101, 101, 122, 46, 116, 101, 99, 104, 46, 115, 116, 98, 111, 120, 0]

def aadMacText : Bytes := CryptoPack.fit aadMacTextLen keyManagerLabel

/-- The associated data: the text with the prefix written over its bytes 24 to 27. -/
def macText (aadPrefix : UInt32) : Effect Bytes :=
  access (poke aadMacText aadMacPrefixPos (encode 4 aadPrefix.toNat))

/-! ### `rijndael128GCM` -/

def getCipherSize (dataSize : UInt32) : UInt32 := dataSize + initializationVectorSize

def getDataSize (cipherSize : UInt32) : Effect UInt32 :=
  if cipherSize < initializationVectorSize then .throws
  else .ok (cipherSize - initializationVectorSize)

section Implementations
variable (L : Library)

/-- `RAND_bytes` and `sgx_read_rand` for an IV. -/
def drawIv : Side → Rng → Effect Bytes
  | _, .ok iv :: _ => .ok (CryptoPack.fit initializationVectorSize.toNat iv)
  | .core, _ => .err .aesRandFail
  | .coreT, .error e :: _ => .err (.sgx e)
  | .coreT, [] => .err (.sgx 1)

/-- `openssl::sgx::rijndael128GCM_encrypt`, which passes the size on as an `int`, and
`sgx_rijndael128GCM_encrypt`. -/
def gcmSeal (key iv aad data : Bytes) (dataSize : UInt32) : Side → Effect (Bytes × Bytes)
  | .core =>
    if L.evpUpdate dataSize.toInt32 then .ok (L.gcmEncrypt key iv aad data) else .throws
  | .coreT => .ok (L.gcmEncrypt key iv aad data)

/-- `openssl::sgx::rijndael128GCM_decrypt` and `sgx_rijndael128GCM_decrypt`, which answers a
wrong tag with `SGX_ERROR_MAC_MISMATCH`. -/
def gcmOpen (key iv aad cipher tag : Bytes) (cipherSize : UInt32) : Side → Effect Bytes
  | .core =>
    if L.evpUpdate cipherSize.toInt32 then
      match L.gcmDecrypt key iv aad cipher tag with
      | some data => .ok data
      | none => .err .invalidData
    else .throws
  | .coreT =>
    match L.gcmDecrypt key iv aad cipher tag with
    | some data => .ok data
    | none => .err (.sgx 0x3001)

/-- `rijndael128GCM::encrypt_with_prefix`. The cipher buffer is the whole of the caller's
buffer, and `outMac` an offset in it. -/
def encryptWithPrefix (side : Side) (key data : Bytes) (dataSize aadPrefix : UInt32)
    (cipher : Bytes) (cipherSize : UInt32) (outMac : ℕ) (rng : Rng) : Effect Bytes := do
  if key.length ≠ 16 then .err .eccInvalidAesKeySize
  else if cipherSize ≠ dataSize + initializationVectorSize then .err .aesInvalidCipherSize
  else
    let aad ← macText aadPrefix
    let iv ← drawIv side rng
    let cipher ← access (poke cipher dataSize.toNat iv)
    let plain ← access (peek data 0 dataSize.toNat)
    let (body, tag) ← gcmSeal L key iv aad plain dataSize side
    let cipher ← access (poke cipher 0 body)
    access (poke cipher outMac tag)

/-- `rijndael128GCM::decrypt_with_prefix`, with `inMac` an offset in the cipher buffer. -/
def decryptWithPrefix (side : Side) (key cipher : Bytes) (cipherSize aadPrefix dataSize : UInt32)
    (inMac : ℕ) : Effect Bytes := do
  if key.length ≠ 16 then .err .eccInvalidAesKeySize
  else if cipherSize ≠ dataSize + initializationVectorSize then .err .aesInvalidDataSize
  else
    let aad ← macText aadPrefix
    let iv ← access (peek cipher dataSize.toNat initializationVectorSize.toNat)
    let body ← access (peek cipher 0 dataSize.toNat)
    let tag ← access (peek cipher inMac 16)
    gcmOpen L key iv aad body tag dataSize side

/-! ### `secp256k1` and `secp256k1_ecdh_sgx128` -/

/-- The loop of the host's `gen_private_key`, which gives up after `0xFFFF` draws. -/
def genPrivateKeyCore : (counter : ℕ) → Rng → Effect (Bytes × Rng)
  | counter, .ok drawn :: rest =>
    if counter + 1 > 0xFFFF then .throws
    else if L.seckeyVerify (CryptoPack.fit privateKeySize drawn) then
      .ok (CryptoPack.fit privateKeySize drawn, rest)
    else genPrivateKeyCore (counter + 1) rest
  | _, _ => .throws

/-- The loop of the enclave's `gen_private_key`. -/
def genPrivateKeyCoreT : Rng → Effect (Bytes × Rng)
  | .ok drawn :: rest =>
    if L.seckeyVerify (CryptoPack.fit privateKeySize drawn) then
      .ok (CryptoPack.fit privateKeySize drawn, rest)
    else genPrivateKeyCoreT rest
  | .error e :: _ => .err (.sgx e)
  | [] => .err (.sgx 1)

def genPrivateKey : Side → Rng → Effect (Bytes × Rng)
  | .core, rng => genPrivateKeyCore L 0 rng
  | .coreT, rng => genPrivateKeyCoreT L rng

/-- Both halves of a public key reversed. -/
def changePubkeyEndian (pkey : Bytes) : Bytes :=
  (pkey.take (pkey.length / 2)).reverse ++ (pkey.drop (pkey.length / 2)).reverse

def generatePkeyFromSkey (skey : Bytes) : Effect Bytes :=
  match L.pubkeyCreate skey with
  | some pubkey => .ok (changePubkeyEndian pubkey)
  | none => .err .eccSecp256k1EcPubkeyCreateError

/-- The point in compressed form, hashed. -/
def ecdhHashFunctionSha256 (x y : Bytes) : Bytes :=
  L.sha256 (((y.getD 31 0 &&& 0x01) ||| 0x02) :: x.take 32)

/-- The bytes from which the host derives the key: a counter, the label, a zero and the length
of the key in bits. -/
def derivationBufferCore (label : Bytes) : Effect Bytes := do
  let length := label.length + 4
  let buffer ← access (poke (List.replicate length (0 : UInt8)) 0 [0x01])
  let buffer ← access (poke buffer 1 label)
  let buffer ← access (poke buffer (length - 3) [0])
  access (poke buffer (length - 2) (encode 2 0x0080))

/-- The same bytes in the enclave, where the zero stays from the clearing of the buffer. -/
def derivationBufferCoreT (label : Bytes) : Effect Bytes := do
  let length := label.length + 4
  let buffer ← access (poke (List.replicate length (0 : UInt8)) 0 [0x01])
  let buffer ← access (poke buffer 1 label)
  access (poke buffer (length - 2) (encode 2 0x0080))

def derivationBuffer (label : Bytes) : Side → Effect Bytes
  | .core => derivationBufferCore label
  | .coreT => derivationBufferCoreT label

def deriveKey (side : Side) (sharedKey label : Bytes) : Effect Bytes := do
  let keyDeriveKey := L.cmac cmacKey sharedKey
  let buffer ← derivationBuffer label side
  return L.cmac keyDeriveKey buffer

def ecdhSharedKey (side : Side) (skey publicKey : Bytes) (sharedKeySize : UInt32) :
    Effect Bytes :=
  if sharedKeySize ≠ 16 then .err .eccInvalidAesKeySize
  else if skey.length ≠ 32 then .err .eccInvalidSkeySize
  else if publicKey.length ≠ 64 then .err .eccInvalidPkeySize
  else
    match L.ecdhPoint (changePubkeyEndian publicKey) skey with
    | none => .err .eccSecp256k1EcdhError
    | some (x, y) => deriveKey L side (ecdhHashFunctionSha256 L x y) keyManagerLabel

end Implementations

/-! ### `aes_gcm_impl` -/

/-- What the template takes from its parameters `EC`, `AES` and `ECDH`. -/
structure Parts where
  getPrivateKeySize : UInt32
  getPublicKeySize : UInt32
  genPrivateKey : Rng → Effect (Bytes × Rng)
  generatePkeyFromSkey : (skey : Bytes) → Effect Bytes
  getEcdhSharedKeySize : UInt32
  ecdhSharedKey : (skey publicKey : Bytes) → (sharedKeySize : UInt32) → Effect Bytes
  getMacCodeSize : UInt32
  getCipherSize : (dataSize : UInt32) → UInt32
  getDataSize : (cipherSize : UInt32) → Effect UInt32
  encryptWithPrefix : (key data : Bytes) → (dataSize aadPrefix : UInt32) → (cipher : Bytes) →
    (cipherSize : UInt32) → (outMac : ℕ) → Rng → Effect Bytes
  decryptWithPrefix : (key cipher : Bytes) → (cipherSize aadPrefix dataSize : UInt32) →
    (inMac : ℕ) → Effect Bytes

/-- `eth_sgx_crypto` of one side. -/
def ethSgxCrypto (L : Library) (side : Side) : Parts where
  getPrivateKeySize := 32
  getPublicKeySize := 64
  genPrivateKey := genPrivateKey L side
  generatePkeyFromSkey := generatePkeyFromSkey L
  getEcdhSharedKeySize := 16
  ecdhSharedKey := ecdhSharedKey L side
  getMacCodeSize := 16
  getCipherSize := getCipherSize
  getDataSize := getDataSize
  encryptWithPrefix := encryptWithPrefix L side
  decryptWithPrefix := decryptWithPrefix L side

section Template
variable (P : Parts)

def getEncryptMessageSizeWithPrefix (dataSize : UInt32) : UInt32 :=
  P.getCipherSize dataSize + P.getPublicKeySize + P.getMacCodeSize

/-- Encryption behind the size check. -/
def encryptInto (publicKey data : Bytes) (dataSize aadPrefix : UInt32) (cipher : Bytes)
    (rng : Rng) : Effect Bytes := do
  let (gskey, rng) ← P.genPrivateKey rng
  let gpkey ← P.generatePkeyFromSkey gskey
  let cipher ← access (poke cipher (P.getCipherSize dataSize).toNat gpkey)
  let sharedKey ← P.ecdhSharedKey gskey publicKey P.getEcdhSharedKeySize
  let outMac := (P.getCipherSize dataSize).toNat + P.getPublicKeySize.toNat
  P.encryptWithPrefix sharedKey data dataSize aadPrefix cipher (P.getCipherSize dataSize) outMac
    rng

/-- Encryption into a buffer of the caller. -/
def encryptMessageWithPrefix (publicKey data : Bytes) (dataSize aadPrefix : UInt32)
    (cipher : Bytes) (cipherSize : UInt32) (rng : Rng) : Effect Bytes :=
  if P.getCipherSize dataSize + P.getPublicKeySize + P.getMacCodeSize ≠ cipherSize then
    .err .aesInvalidCipherSize
  else encryptInto P publicKey data dataSize aadPrefix cipher rng

/-- Encryption into bytes of its own. -/
def encryptMessage (publicKey data : Bytes) (aadPrefix : UInt32) (rng : Rng) : Effect Bytes :=
  let dataSize := UInt32.ofNat data.length
  let cipherSize := getEncryptMessageSizeWithPrefix P dataSize
  encryptMessageWithPrefix P publicKey data dataSize aadPrefix
    (List.replicate cipherSize.toNat 0) cipherSize rng

def getDecryptMessageSizeWithPrefix (cipherSize : UInt32) : Effect UInt32 := do
  let dataSize ← P.getDataSize cipherSize
  return dataSize - P.getPublicKeySize - P.getMacCodeSize

/-- Decryption behind the size check, into a data buffer of `dataSize` bytes. -/
def decryptInto (privateKey cipher : Bytes) (dataSize aadPrefix : UInt32) : Effect Bytes := do
  let publicKey ← access
    (peek cipher (P.getCipherSize dataSize).toNat P.getPublicKeySize.toNat)
  let sharedKey ← P.ecdhSharedKey privateKey publicKey P.getEcdhSharedKeySize
  let inMac := (P.getCipherSize dataSize).toNat + P.getPublicKeySize.toNat
  P.decryptWithPrefix sharedKey cipher (P.getCipherSize dataSize) aadPrefix dataSize inMac

/-- Decryption of a buffer of the caller. -/
def decryptMessageWithPrefix (privateKey cipher : Bytes) (cipherSize dataSize : UInt32)
    (aadPrefix : UInt32) : Effect Bytes :=
  if P.getCipherSize dataSize + P.getPublicKeySize + P.getMacCodeSize ≠ cipherSize then
    .err .aesInvalidDataSize
  else decryptInto P privateKey cipher dataSize aadPrefix

/-- Decryption into bytes of its own, as many as the size of the cipher gives. -/
def decryptMessage (privateKey cipher : Bytes) (aadPrefix : UInt32) : Effect Bytes := do
  let dataSize ← getDecryptMessageSizeWithPrefix P (UInt32.ofNat cipher.length)
  decryptMessageWithPrefix P privateKey cipher (UInt32.ofNat cipher.length) dataSize aadPrefix

end Template

end PrivacyComputing.Envelope
