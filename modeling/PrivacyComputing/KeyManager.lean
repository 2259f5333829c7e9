import PrivacyComputing.CryptoPack
import PrivacyComputing.RunsHistory

/-! The table of forwarded private keys in the key manager enclave: who may register a
key with `forward_private_key`, and which peer `handle_pkg` gives it to. -/
namespace PrivacyComputing.KeyManager
open Runs

/-- `sgx_measurement_t`. -/
abbrev Measurement := { m : Bytes // m.length = 32 }

/-- `"any enclave"`. -/
def anyEnclave : Bytes := [97, 110, 121, 32, 101, 110, 99, 108, 97, 118, 101]

structure PrivateKeyInfo where
  shuSkey : Bytes
  dianPkey : Bytes
  deriving DecidableEq, Repr

/-- The arguments of `forward_private_key`. `keyPair` is what the host's `load_key_pair` and
unsealing give, `beyond` the memory that follows the public key. -/
structure Forward where
  encryptedPrivateKey : Bytes
  epublicKey : Bytes
  ehash : Bytes
  sig : Bytes
  keyPair : Except StxError Bytes
  beyond : Bytes
  deriving DecidableEq, Repr

inductive Event
  | forwarded (f : Forward)
  | released (pkey : Bytes) (peer : Measurement) (info : PrivateKeyInfo)
  deriving DecidableEq, Repr

/-- `private_key_table`, keyed by public key and enclave hash in one string. -/
structure KeyTable where
  privateKeyTable : Bytes → Option PrivateKeyInfo
  history : List Event

inductive Call
  | forwardPrivateKey (f : Forward)
  | handlePkg (pkey : Bytes) (peer : Measurement)
  deriving DecidableEq, Repr

section Methods
variable (c : CryptoPack)

/-- `load_and_check_key_pair`. The comparison reads as many bytes as a public key has,
whatever size the argument was given with. -/
def loadAndCheckKeyPair (f : Forward) : Except StxError Bytes :=
  match f.keyPair with
  | .error e => .error e
  | .ok skey =>
    match c.generatePkeyFromSkey skey with
    | .error _ => .error (.code 1)
    | .ok expectPkey =>
      if (f.epublicKey ++ f.beyond).take expectPkey.length ≠ expectPkey then
        .error .kmgrPkeySkeyMismatch
      else .ok skey

/-- The entry that `forward_private_key` would make: its key in the table and its value. -/
def forwardedEntry (f : Forward) (skey : Bytes) : Outcome (Bytes × Bytes × PrivateKeyInfo) :=
  match c.decryptMessageWithPrefix skey f.encryptedPrivateKey cryptoPrefixForward with
  | .throws => .throws
  | .err e => .err e
  | .ok forwardSkey =>
    match c.generatePkeyFromSkey forwardSkey with
    | .error e => .err e
    | .ok forwardPubKey =>
      .ok (forwardPubKey ++ f.ehash, forwardPubKey, ⟨forwardSkey, f.epublicKey⟩)

def KeyTable.forwardPrivateKey (t : KeyTable) (f : Forward) : KeyTable :=
  let t := { t with history := .forwarded f :: t.history }
  match loadAndCheckKeyPair c f with
  | .error _ => t
  | .ok skey =>
    match forwardedEntry c f skey with
    | .throws | .err _ => t
    | .ok (strMsgKey, forwardPubKey, pki) =>
      if (t.privateKeyTable strMsgKey).isSome then t
      else
        match c.verifySignature (f.epublicKey ++ f.ehash) f.sig forwardPubKey with
        | .error _ => t
        | .ok () =>
          { t with privateKeyTable := Function.update t.privateKeyTable strMsgKey (some pki) }

/-- What `forward_private_key` returns. A key that is in the table already counts as a
success. -/
def KeyTable.forwardResult (t : KeyTable) (f : Forward) : Outcome Unit :=
  match loadAndCheckKeyPair c f with
  | .error e => .err e
  | .ok skey =>
    match forwardedEntry c f skey with
    | .throws => .throws
    | .err e => .err e
    | .ok (strMsgKey, forwardPubKey, _) =>
      if (t.privateKeyTable strMsgKey).isSome then .ok ()
      else
        match c.verifySignature (f.epublicKey ++ f.ehash) f.sig forwardPubKey with
        | .error e => .err e
        | .ok () => .ok ()

/-- The entry for the peer itself, or else the one for any enclave. -/
def KeyTable.lookup (t : KeyTable) (pkey : Bytes) (peer : Measurement) : Option PrivateKeyInfo :=
  match t.privateKeyTable (pkey ++ peer.1) with
  | some info => some info
  | none => t.privateKeyTable (pkey ++ c.hash256 anyEnclave)

/-- A request that finds no entry leaves the handler by an exception. -/
def KeyTable.handlePkg (t : KeyTable) (pkey : Bytes) (peer : Measurement) :
    Option Bytes × KeyTable :=
  match t.lookup c pkey peer with
  | none => (none, t)
  | some info => (some (info.shuSkey ++ info.dianPkey),
      { t with history := .released pkey peer info :: t.history })

def KeyTable.step (t : KeyTable) : Call → KeyTable
  | .forwardPrivateKey f => t.forwardPrivateKey c f
  | .handlePkg pkey peer => (t.handlePkg c pkey peer).2

def KeyTable.start : KeyTable := ⟨fun _ => none, []⟩

/-- The release is covered by a forward call: its signature under the public key of the
released key is over the 64 bytes of the released `dian_pkey` and the hash of this peer or
of any enclave, and the request named that public key. -/
def Covered (older : List Event) : Event → Prop
  | .forwarded _ => True
  | .released pkey peer info =>
      ∃ f h, .forwarded f ∈ older ∧ c.generatePkeyFromSkey info.shuSkey = .ok pkey ∧
        info.dianPkey.length = publicKeySize ∧ h.length = hashSize ∧
        c.verifySignature (info.dianPkey ++ h) f.sig pkey = .ok () ∧
        (h = peer.1 ∨ h = c.hash256 anyEnclave)

/-- No key has ever been released without being covered. -/
def ReleasePolicy (t : KeyTable) : Prop :=
  ∀ newer older e, t.history = newer ++ e :: older → Covered c older e

/-- Every key is forwarded with arguments of the right sizes. -/
def WellSized : Call → Prop
  | .forwardPrivateKey f => f.epublicKey.length = publicKeySize ∧ f.ehash.length = hashSize
  | .handlePkg .. => True

/-- An entry of the table that a well-sized call has made. -/
def Entered (history : List Event) (key : Bytes) (info : PrivateKeyInfo) : Prop :=
  ∃ f pkey, .forwarded f ∈ history ∧ c.generatePkeyFromSkey info.shuSkey = .ok pkey ∧
    info.dianPkey.length = publicKeySize ∧ f.ehash.length = hashSize ∧
    c.verifySignature (info.dianPkey ++ f.ehash) f.sig pkey = .ok () ∧ key = pkey ++ f.ehash

structure TableInv (t : KeyTable) : Prop where
  entered : ∀ key info, t.privateKeyTable key = some info → Entered c t.history key info
  law : Justified (Covered c) t.history

lemma Entered.mono {history : List Event} {key : Bytes} {info : PrivateKeyInfo}
    (h : Entered c history key info) (e : Event) : Entered c (e :: history) key info := by
  obtain ⟨f, pkey, hf, hrest⟩ := h
  exact ⟨f, pkey, List.mem_cons_of_mem _ hf, hrest⟩

lemma forwardedEntry_ok {f : Forward} {skey key pkey : Bytes} {info : PrivateKeyInfo}
    (h : forwardedEntry c f skey = .ok (key, pkey, info)) :
    key = pkey ++ f.ehash ∧ c.generatePkeyFromSkey info.shuSkey = .ok pkey ∧
      info.dianPkey = f.epublicKey := by
  unfold forwardedEntry at h
  split at h
  · cases h
  · cases h
  · split at h
    · cases h
    · rename_i hpkey
      cases h
      exact ⟨rfl, hpkey, rfl⟩

theorem tableInv_forward {t : KeyTable} (h : TableInv c t) (f : Forward)
    (hsize : WellSized (.forwardPrivateKey f)) : TableInv c (t.forwardPrivateKey c f) := by
  have hlog : TableInv c { t with history := .forwarded f :: t.history } :=
    ⟨fun key info hk => (h.entered key info hk).mono c _, trivial, h.law⟩
  unfold KeyTable.forwardPrivateKey
  dsimp only
  split
  · exact hlog
  · split
    · exact hlog
    · exact hlog
    · rename_i key pkey info hentry
      obtain ⟨hkey, hpkey, hdian⟩ := forwardedEntry_ok c hentry
      split_ifs
      · exact hlog
      · split
        · exact hlog
        · rename_i hsig
          refine ⟨?_, hlog.law⟩
          intro key' info' hk
          by_cases heq : key' = key
          · subst heq
            simp only [Function.update_self, Option.some.injEq] at hk
            subst hk
            rw [← hdian] at hsig
            exact ⟨f, pkey, List.mem_cons_self, hpkey, hdian ▸ hsize.1, hsize.2, hsig, hkey⟩
          · simp only [Function.update_of_ne heq] at hk
            exact hlog.entered key' info' hk

/-- Two strings with a 32-byte end and a 64-byte public key in front split in one way only. -/
lemma covered_of_entered {older : List Event} {pkey h : Bytes} {info : PrivateKeyInfo}
    {peer : Measurement} (hh : h.length = hashSize) (hpeer : h = peer.1 ∨ h = c.hash256 anyEnclave)
    (he : Entered c older (pkey ++ h) info) : Covered c older (.released pkey peer info) := by
  obtain ⟨f, pk, hf, hpk, hdian, hehash, hsig, hsplit⟩ := he
  obtain ⟨rfl, rfl⟩ := List.append_inj' hsplit (hh.trans hehash.symm)
  exact ⟨f, f.ehash, hf, hpk, hdian, hehash, hsig, hpeer⟩

theorem tableInv_handlePkg {t : KeyTable} (h : TableInv c t) (pkey : Bytes) (peer : Measurement) :
    TableInv c (t.handlePkg c pkey peer).2 := by
  unfold KeyTable.handlePkg
  cases hl : t.lookup c pkey peer with
  | none => exact h
  | some info =>
    refine ⟨fun key info' hk => (h.entered key info' hk).mono c _, ?_, h.law⟩
    unfold KeyTable.lookup at hl
    split at hl
    · rename_i hfound
      cases hl
      exact covered_of_entered c peer.2 (.inl rfl) (h.entered _ _ hfound)
    · exact covered_of_entered c (c.hash_size _) (.inr rfl) (h.entered _ _ hl)

theorem tableInv_step (t : KeyTable) (call : Call) (h : TableInv c t) (hsize : WellSized call) :
    TableInv c (t.step c call) := by
  cases call with
  | forwardPrivateKey f => exact tableInv_forward c h f hsize
  | handlePkg pkey peer => exact tableInv_handlePkg c h pkey peer

/-- When all keys are forwarded with arguments of the right sizes, every release of a key is
covered by a signature of the key's owner. -/
theorem released_keys_are_covered (calls : List Call)
    (hsize : Along (KeyTable.step c) (fun _ call => WellSized call) KeyTable.start calls) :
    ReleasePolicy c (run (KeyTable.step c) KeyTable.start calls) := by
  have hstart : TableInv c KeyTable.start := by
    refine ⟨?_, trivial⟩
    intro key info hk
    cases hk
  have hlaw := (run_invariant (tableInv_step c) hstart hsize).law
  intro newer older e hsplit
  rw [hsplit] at hlaw
  exact hlaw.at_event

end Methods

section Demo

def shuSkey : Bytes := List.replicate 32 5
def dianSkey : Bytes := List.replicate 32 6
def demoPeer : Measurement := ⟨List.replicate 32 3, rfl⟩

/-- A key forwarded for `ehash` with a valid signature of its owner, in the transparent
pack. -/
def demoForward (ehash : Bytes) : Forward where
  encryptedPrivateKey := CryptoPack.plainEnvelope dianSkey cryptoPrefixForward ++ shuSkey
  epublicKey := dianSkey ++ dianSkey
  ehash := ehash
  sig := shuSkey ++ (dianSkey ++ dianSkey ++ ehash)
  keyPair := .ok dianSkey
  beyond := []

def demoCalls (ehash pkey : Bytes) : List Call :=
  [.forwardPrivateKey (demoForward ehash), .handlePkg pkey demoPeer]

theorem released_keys_are_covered_once :
    (run (KeyTable.step CryptoPack.plain) KeyTable.start
      (demoCalls demoPeer.1 (shuSkey ++ shuSkey))).history =
      [.released (shuSkey ++ shuSkey) demoPeer ⟨shuSkey, dianSkey ++ dianSkey⟩,
        .forwarded (demoForward demoPeer.1)] ∧
    ReleasePolicy CryptoPack.plain (run (KeyTable.step CryptoPack.plain) KeyTable.start
      (demoCalls demoPeer.1 (shuSkey ++ shuSkey))) := by
  have hsize : Along (KeyTable.step CryptoPack.plain) (fun _ call => WellSized call)
      KeyTable.start (demoCalls demoPeer.1 (shuSkey ++ shuSkey)) :=
    ⟨⟨rfl, rfl⟩, trivial, trivial⟩
  exact ⟨by decide +kernel, released_keys_are_covered CryptoPack.plain _ hsize⟩

/-- A key forwarded for a hash of 33 bytes is given out to a request for a public key of 65
bytes. -/
theorem resplit_key_is_released :
    ¬ ReleasePolicy CryptoPack.plain (run (KeyTable.step CryptoPack.plain) KeyTable.start
      (demoCalls (7 :: demoPeer.1) (shuSkey ++ shuSkey ++ [7]))) := by
  have hhistory : (run (KeyTable.step CryptoPack.plain) KeyTable.start
      (demoCalls (7 :: demoPeer.1) (shuSkey ++ shuSkey ++ [7]))).history =
      [.released (shuSkey ++ shuSkey ++ [7]) demoPeer ⟨shuSkey, dianSkey ++ dianSkey⟩,
        .forwarded (demoForward (7 :: demoPeer.1))] := by decide +kernel
  intro h
  obtain ⟨f, h', hf, hpkey, -⟩ := h [] _ _ hhistory
  have hlen := CryptoPack.plain.pkey_size _ _ hpkey
  revert hlen
  decide

end Demo
end PrivacyComputing.KeyManager
