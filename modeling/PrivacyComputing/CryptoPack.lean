import Mathlib.Algebra.Ring.Nat
import Mathlib.Data.List.Basic
import Mathlib.Tactic.Common

/-! Byte strings, status codes and the `crypto_pack` interface shared by the key
manager, the parser enclave and the data hub. Curve, cipher and hash are
parameters; what the wrappers in `crypto/interface` fix is the size of their
output buffers, and these sizes are fields of the structure. -/
namespace PrivacyComputing

abbrev Bytes := List UInt8

/-- The error codes of `stx_status.def` that the modelled functions return. Codes that
come from the SGX SDK, from a cipher or from the host are kept as numbers. -/
inductive StxError
  | invalidParameter | invalidSession | outBufferLengthError | invalidParameterError
  | enclaveTrustError | errorUnexpected | noSuchFeature | eccInvalidSkeySize
  | kmgrPkeySkeyMismatch | kmgrSessionInconsistencyPkeySkey
  | dataSourceNotFound | sealedFileReachEnd | dataSourceNotSet | dataHashNotSameAsExpect
  | forwardTargetNotSet | forwardAllowanceInvalid | modelAllowanceMiss | dataAllowanceMiss
  | code (n : ℕ)
  deriving DecidableEq, Repr

/-- A `stx_status` value: `success`, or one of the errors. -/
abbrev Status := Except StxError Unit

/-- What a call hands back when it may report a status or leave by an exception. -/
inductive Outcome (α : Type*)
  | ok (a : α)
  | err (e : StxError)
  | throws
  deriving DecidableEq, Repr

def privateKeySize : ℕ := 32
def publicKeySize : ℕ := 64
def hashSize : ℕ := 32

/-- What a cipher text has over its plain text: the IV, the ephemeral public key and the
authentication code. -/
def cipherOverhead : ℕ := 12 + publicKeySize + 16

def cryptoPrefixForward : ℕ := 1
def cryptoPrefixArbitrary : ℕ := 2

/-- `crypto_pack`: `ecc_impl`, `hash_impl`, `sign_impl` and `aes_gcm_impl`. Encryption draws
an ephemeral key and an IV, given here as its first argument. Decryption throws on a
cipher shorter than an IV. -/
structure CryptoPack where
  hash256 : Bytes → Bytes
  generatePkeyFromSkey : Bytes → Except StxError Bytes
  signMessage : (skey data : Bytes) → Except StxError Bytes
  verifySignature : (data sig pkey : Bytes) → Status
  encryptMessageWithPrefix : (rand pkey data : Bytes) → (aadPrefix : ℕ) → Except StxError Bytes
  decryptMessageWithPrefix : (skey cipher : Bytes) → (aadPrefix : ℕ) → Outcome Bytes
  hash_size : ∀ m, (hash256 m).length = hashSize
  pkey_size : ∀ skey pkey, generatePkeyFromSkey skey = .ok pkey → pkey.length = publicKeySize
  cipher_size : ∀ rand pkey data aadPrefix cipher, data.length + cipherOverhead < 2 ^ 32 →
    encryptMessageWithPrefix rand pkey data aadPrefix = .ok cipher →
    cipher.length = data.length + cipherOverhead

namespace CryptoPack

def fit (n : ℕ) (b : Bytes) : Bytes := (b ++ List.replicate n 0).take n

lemma fit_length (n : ℕ) (b : Bytes) : (fit n b).length = n := by
  simp [fit]

def plainPkey (skey : Bytes) : Except StxError Bytes :=
  if skey.length = privateKeySize then .ok (skey ++ skey) else .error .eccInvalidSkeySize

/-- The part of a transparent cipher text before the data: its recipient and its prefix. -/
def plainEnvelope (skey : Bytes) (aadPrefix : ℕ) : Bytes :=
  fit cipherOverhead (skey.take privateKeySize ++ [UInt8.ofNat aadPrefix])

def plainDecrypt (skey cipher : Bytes) (aadPrefix : ℕ) : Outcome Bytes :=
  if cipher.length < 12 then .throws
  else if cipher.take cipherOverhead = plainEnvelope skey aadPrefix then
    .ok (cipher.drop cipherOverhead)
  else .err (.code 1)

/-- A transparent pack to evaluate the model with: a public key is the private key twice, a
cipher text names its recipient and its prefix, a signature names its signer and its
message. -/
def plain : CryptoPack where
  hash256 := fit hashSize
  generatePkeyFromSkey := plainPkey
  signMessage skey data := .ok (skey ++ data)
  verifySignature data sig pkey :=
    if pkey.take privateKeySize ++ data = sig then .ok () else .error (.code 2)
  encryptMessageWithPrefix _ pkey data aadPrefix := .ok (plainEnvelope pkey aadPrefix ++ data)
  decryptMessageWithPrefix := plainDecrypt
  hash_size := fit_length hashSize
  pkey_size skey pkey h := by
    unfold plainPkey at h
    split_ifs at h with hs
    cases h
    rw [List.length_append, hs, privateKeySize, publicKeySize]
  cipher_size rand pkey data aadPrefix cipher _ h := by
    cases h
    rw [List.length_append, plainEnvelope, fit_length, Nat.add_comm]

lemma plain_decrypt_encrypt {skey : Bytes} (hs : skey.length = privateKeySize)
    (r data cipher : Bytes) (aadPrefix : ℕ)
    (h : plain.encryptMessageWithPrefix r (skey ++ skey) data aadPrefix = .ok cipher) :
    plain.decryptMessageWithPrefix skey cipher aadPrefix = .ok data := by
  have henv : plainEnvelope (skey ++ skey) aadPrefix = plainEnvelope skey aadPrefix := by
    rw [plainEnvelope, plainEnvelope, List.take_append_of_le_length (by omega)]
  have hlen : (plainEnvelope skey aadPrefix).length = cipherOverhead := fit_length _ _
  have hc : cipher = plainEnvelope skey aadPrefix ++ data := by
    rw [← henv]
    exact (Except.ok.inj h).symm
  change plainDecrypt skey cipher aadPrefix = .ok data
  have hlong : ¬ cipher.length < 12 := by
    rw [hc, List.length_append, hlen]
    simp [cipherOverhead, publicKeySize]
    omega
  rw [plainDecrypt, if_neg hlong, hc, List.take_left' hlen, if_pos rfl, List.drop_left' hlen]

end CryptoPack

end PrivacyComputing
