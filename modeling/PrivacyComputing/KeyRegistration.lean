import PrivacyComputing.KeyManager

/-! What the return value of `forward_private_key` says about the table: the first registration of
a key for an enclave stays, and later calls for the same two succeed without a look at their
signature. -/
namespace PrivacyComputing.KeyManager
open Runs

section Registration
variable (c : CryptoPack)

/-- The private key that the call brings along, and its public key. -/
def Brings (f : Forward) (forwardSkey forwardPubKey : Bytes) : Prop :=
  ∃ skey, loadAndCheckKeyPair c f = .ok skey ∧
    c.decryptMessageWithPrefix skey f.encryptedPrivateKey cryptoPrefixForward = .ok forwardSkey ∧
    c.generatePkeyFromSkey forwardSkey = .ok forwardPubKey

/-- The signature of the call is by the owner of the public key, over its other arguments. -/
def Signed (f : Forward) (forwardPubKey : Bytes) : Prop :=
  c.verifySignature (f.epublicKey ++ f.ehash) f.sig forwardPubKey = .ok ()

/-- Every peer that was meant gets this answer. -/
def Answers (t : KeyTable) (pkey ehash : Bytes) (info : PrivateKeyInfo) : Prop :=
  t.privateKeyTable (pkey ++ ehash) = some info ∧
    ∀ peer : Measurement, peer.1 = ehash →
      (t.handlePkg c pkey peer).1 = some (info.shuSkey ++ info.dianPkey)

/-- An entry that a signed call has made. -/
def Registered (history : List Event) (key : Bytes) (info : PrivateKeyInfo) : Prop :=
  ∃ g pkey, .forwarded g ∈ history ∧ Brings c g info.shuSkey pkey ∧ Signed c g pkey ∧
    info.dianPkey = g.epublicKey ∧ key = pkey ++ g.ehash

def AllRegistered (t : KeyTable) : Prop :=
  ∀ key info, t.privateKeyTable key = some info → Registered c t.history key info

/-- Everything one call of `forward_private_key` can do. -/
inductive ForwardSpec (t : KeyTable) (f : Forward) : Outcome Unit → KeyTable → Prop
  | refused (result : Outcome Unit) (failed : result ≠ .ok ()) :
      ForwardSpec t f result { t with history := .forwarded f :: t.history }
  | present (forwardSkey forwardPubKey : Bytes) (info : PrivateKeyInfo)
      (brings : Brings c f forwardSkey forwardPubKey)
      (found : t.privateKeyTable (forwardPubKey ++ f.ehash) = some info) :
      ForwardSpec t f (.ok ()) { t with history := .forwarded f :: t.history }
  | entered (forwardSkey forwardPubKey : Bytes) (brings : Brings c f forwardSkey forwardPubKey)
      (absent : t.privateKeyTable (forwardPubKey ++ f.ehash) = none)
      (signed : Signed c f forwardPubKey) :
      ForwardSpec t f (.ok ())
        { privateKeyTable := Function.update t.privateKeyTable (forwardPubKey ++ f.ehash)
            (some ⟨forwardSkey, f.epublicKey⟩)
          history := .forwarded f :: t.history }

lemma forwardedEntry_cases (f : Forward) {skey : Bytes}
    (hload : loadAndCheckKeyPair c f = .ok skey) :
    forwardedEntry c f skey = .throws ∨ (∃ e, forwardedEntry c f skey = .err e) ∨
      ∃ forwardSkey forwardPubKey, Brings c f forwardSkey forwardPubKey ∧
        forwardedEntry c f skey =
          .ok (forwardPubKey ++ f.ehash, forwardPubKey, ⟨forwardSkey, f.epublicKey⟩) := by
  unfold forwardedEntry
  cases hdec : c.decryptMessageWithPrefix skey f.encryptedPrivateKey cryptoPrefixForward with
  | throws => exact Or.inl rfl
  | err e => exact Or.inr (Or.inl ⟨e, rfl⟩)
  | ok forwardSkey =>
    cases hpkey : c.generatePkeyFromSkey forwardSkey with
    | error e => exact Or.inr (Or.inl ⟨e, by simp [hpkey]⟩)
    | ok forwardPubKey =>
      refine Or.inr (Or.inr ⟨forwardSkey, forwardPubKey, ⟨skey, hload, hdec, hpkey⟩, ?_⟩)
      simp [hpkey]

theorem forwardPrivateKey_spec (t : KeyTable) (f : Forward) :
    ForwardSpec c t f (t.forwardResult c f) (t.forwardPrivateKey c f) := by
  unfold KeyTable.forwardResult KeyTable.forwardPrivateKey
  cases hload : loadAndCheckKeyPair c f with
  | error e => exact .refused _ (by simp)
  | ok skey =>
    dsimp only
    rcases forwardedEntry_cases c f hload with h | ⟨e, h⟩ | ⟨forwardSkey, forwardPubKey, hb, h⟩
    · rw [h]
      exact .refused _ (by simp)
    · rw [h]
      exact .refused _ (by simp)
    · rw [h]
      dsimp only
      cases hfound : t.privateKeyTable (forwardPubKey ++ f.ehash) with
      | some info => exact .present forwardSkey forwardPubKey info hb hfound
      | none =>
        simp only [Option.isSome_none, Bool.false_eq_true, if_false]
        cases hsig : c.verifySignature (f.epublicKey ++ f.ehash) f.sig forwardPubKey with
        | error e => exact .refused _ (by simp)
        | ok u => exact .entered forwardSkey forwardPubKey hb hfound hsig

lemma Registered.mono {history : List Event} {key : Bytes} {info : PrivateKeyInfo}
    (h : Registered c history key info) (e : Event) : Registered c (e :: history) key info := by
  obtain ⟨g, pkey, hg, hrest⟩ := h
  exact ⟨g, pkey, List.mem_cons_of_mem _ hg, hrest⟩

lemma allRegistered_forward {t : KeyTable} (h : AllRegistered c t) (f : Forward) :
    AllRegistered c (t.forwardPrivateKey c f) := by
  have hspec := forwardPrivateKey_spec c t f
  generalize t.forwardResult c f = result at hspec
  generalize t.forwardPrivateKey c f = t' at hspec ⊢
  cases hspec with
  | refused result failed => exact fun key info hk => (h key info hk).mono c _
  | present forwardSkey forwardPubKey info brings found =>
    exact fun key info hk => (h key info hk).mono c _
  | entered forwardSkey forwardPubKey brings absent signed =>
    intro key info hk
    by_cases hkey : key = forwardPubKey ++ f.ehash
    · subst hkey
      simp only [Function.update_self, Option.some.injEq] at hk
      subst hk
      exact ⟨f, forwardPubKey, List.mem_cons_self, brings, signed, rfl, rfl⟩
    · simp only [Function.update_of_ne hkey] at hk
      exact (h key info hk).mono c _

lemma allRegistered_handlePkg {t : KeyTable} (h : AllRegistered c t) (pkey : Bytes)
    (peer : Measurement) : AllRegistered c (t.handlePkg c pkey peer).2 := by
  unfold KeyTable.handlePkg
  cases t.lookup c pkey peer with
  | none => exact h
  | some info => exact fun key info hk => (h key info hk).mono c _

lemma allRegistered_step (t : KeyTable) (call : Call) (h : AllRegistered c t) :
    AllRegistered c (t.step c call) := by
  cases call with
  | forwardPrivateKey f => exact allRegistered_forward c h f
  | handlePkg pkey peer => exact allRegistered_handlePkg c h pkey peer

lemma allRegistered_run (calls : List Call) :
    AllRegistered c (run (KeyTable.step c) KeyTable.start calls) := by
  refine run_always (allRegistered_step c) calls ?_
  intro key info hk
  cases hk

lemma answers_of_found {t : KeyTable} {pkey ehash : Bytes} {info : PrivateKeyInfo}
    (h : t.privateKeyTable (pkey ++ ehash) = some info) : Answers c t pkey ehash info := by
  refine ⟨h, ?_⟩
  rintro peer rfl
  simp [KeyTable.handlePkg, KeyTable.lookup, h]

/-- The public key has a fixed size, so an entry under the same string was made for the same key
and the same enclave. -/
lemma Registered.same {history : List Event} {forwardSkey forwardPubKey : Bytes} {f : Forward}
    {info : PrivateKeyInfo} (brings : Brings c f forwardSkey forwardPubKey)
    (h : Registered c history (forwardPubKey ++ f.ehash) info) :
    ∃ g, .forwarded g ∈ history ∧ g.ehash = f.ehash ∧ Brings c g info.shuSkey forwardPubKey ∧
      Signed c g forwardPubKey ∧ info.dianPkey = g.epublicKey := by
  obtain ⟨g, pkey, hg, hbrings, hsigned, hdian, hkey⟩ := h
  have hlen : forwardPubKey.length = pkey.length := by
    obtain ⟨-, -, -, hmade⟩ := brings
    obtain ⟨-, -, -, hmade'⟩ := hbrings
    rw [c.pkey_size _ _ hmade, c.pkey_size _ _ hmade']
  obtain ⟨rfl, hehash⟩ := List.append_inj hkey hlen
  exact ⟨g, hg, hehash.symm, hbrings, hsigned, hdian⟩

/-- A call that brings a key which the table does not have for this enclave succeeds only with a
valid signature, and then its entry is given out. A call that brings another key of that pair
changes nothing: what is given out stays as an earlier signed call has left it. -/
theorem forward_success_is_registered (calls : List Call) (f : Forward) :
    let t := run (KeyTable.step c) KeyTable.start calls
    let t' := t.forwardPrivateKey c f
    (t.forwardResult c f = .ok () →
      ∃ forwardSkey forwardPubKey, Brings c f forwardSkey forwardPubKey ∧
        match t.privateKeyTable (forwardPubKey ++ f.ehash) with
        | none => Signed c f forwardPubKey ∧
            Answers c t' forwardPubKey f.ehash ⟨forwardSkey, f.epublicKey⟩
        | some info => t'.privateKeyTable = t.privateKeyTable ∧
            Answers c t' forwardPubKey f.ehash info ∧
            ∃ g, .forwarded g ∈ t.history ∧ g.ehash = f.ehash ∧
              Brings c g info.shuSkey forwardPubKey ∧ Signed c g forwardPubKey ∧
              info.dianPkey = g.epublicKey) ∧
    (t.forwardResult c f ≠ .ok () → t'.privateKeyTable = t.privateKeyTable) := by
  intro t t'
  have hall : AllRegistered c t := allRegistered_run c calls
  have hspec : ForwardSpec c t f (t.forwardResult c f) t' := forwardPrivateKey_spec c t f
  generalize t.forwardResult c f = result at hspec ⊢
  generalize t' = t' at hspec ⊢
  cases hspec with
  | refused result failed => exact ⟨fun h => absurd h failed, fun _ => rfl⟩
  | present forwardSkey forwardPubKey info brings found =>
    refine ⟨fun _ => ⟨forwardSkey, forwardPubKey, brings, ?_⟩, fun _ => rfl⟩
    rw [found]
    exact ⟨rfl, answers_of_found c found, (hall _ _ found).same c brings⟩
  | entered forwardSkey forwardPubKey brings absent signed =>
    refine ⟨fun _ => ⟨forwardSkey, forwardPubKey, brings, ?_⟩, fun h => absurd rfl h⟩
    rw [absent]
    exact ⟨signed, answers_of_found c (Function.update_self ..)⟩

end Registration

section Demo

def otherDianSkey : Bytes := List.replicate 32 8

/-- The same key once more, under another key pair of the key manager and with no signature. -/
def unsignedForward : Forward where
  encryptedPrivateKey := CryptoPack.plainEnvelope otherDianSkey cryptoPrefixForward ++ shuSkey
  epublicKey := otherDianSkey ++ otherDianSkey
  ehash := demoPeer.1
  sig := []
  keyPair := .ok otherDianSkey
  beyond := []

/-- It succeeds, and the key is still given out with the public key of the first call. -/
theorem unsigned_forward_succeeds :
    let t := run (KeyTable.step CryptoPack.plain) KeyTable.start
      [.forwardPrivateKey (demoForward demoPeer.1)]
    t.forwardResult CryptoPack.plain unsignedForward = .ok () ∧
      (∀ forwardPubKey, ¬Signed CryptoPack.plain unsignedForward forwardPubKey) ∧
      ((t.forwardPrivateKey CryptoPack.plain unsignedForward).handlePkg CryptoPack.plain
        (shuSkey ++ shuSkey) demoPeer).1 = some (shuSkey ++ (dianSkey ++ dianSkey)) := by
  refine ⟨by decide +kernel, ?_, by decide +kernel⟩
  intro forwardPubKey h
  have hempty : ¬(forwardPubKey.take privateKeySize ++
      (unsignedForward.epublicKey ++ unsignedForward.ehash) = unsignedForward.sig) := by
    simp [unsignedForward, otherDianSkey]
  simp [Signed, CryptoPack.plain, hempty] at h

end Demo
end PrivacyComputing.KeyManager
