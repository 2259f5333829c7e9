import PrivacyComputing.KeyManager

/-! The access policy of the key manager enclave: `is_certified_signer` with its whitelists and
blacklists, and the ecall that replaces the policy. -/
namespace PrivacyComputing.KeyManager

def accessPolicyWhitelist : UInt8 := 1
def accessPolicyBlacklist : UInt8 := 2
def accessPolicySigner : UInt8 := 3
def accessPolicyEnclave : UInt8 := 4

def sgxFlagsInitted : UInt64 := 1
def sgxFlagsDebug : UInt64 := 2

structure AccessItem where
  data : Bytes
  accessDataType : UInt8
  deriving DecidableEq, Repr

structure AccessListPackage where
  accessListType : UInt8
  accessList : List AccessItem
  deriving DecidableEq, Repr

/-- The members of `sgx_dh_session_enclave_identity_t` that the trust check reads. -/
structure PeerIdentity where
  flags : UInt64
  mrEnclave : Measurement
  mrSigner : Measurement
  deriving DecidableEq

/-- `release` is a build with `NDEBUG` and without `EDEBUG`. -/
structure TrustConfig where
  release : Bool
  selfSigner : Measurement
  deriving DecidableEq

inductive ItemCheck
  | found
  | passed
  | unexpected
  deriving DecidableEq, Repr

def AccessItem.equals (item : AccessItem) (m : Measurement) : Bool :=
  item.data.length = 32 ∧ m.1 = item.data.take 32

/-- One round of either loop over the list. -/
def AccessItem.check (item : AccessItem) (peer : PeerIdentity) : ItemCheck :=
  if item.accessDataType = accessPolicyEnclave then
    if item.equals peer.mrEnclave then .found else .passed
  else if item.accessDataType = accessPolicySigner then
    if item.equals peer.mrSigner then .found else .passed
  else .unexpected

def inWhitelist (peer : PeerIdentity) : List AccessItem → Bool
  | [] => false
  | item :: list =>
    match item.check peer with
    | .found => true
    | .passed => inWhitelist peer list
    | .unexpected => false

def outsideBlacklist (peer : PeerIdentity) : List AccessItem → Bool
  | [] => true
  | item :: list =>
    match item.check peer with
    | .found => false
    | .passed => outsideBlacklist peer list
    | .unexpected => false

/-- The flags that every peer needs, whatever the policy. -/
def TrustConfig.flagsAccepted (env : TrustConfig) (peer : PeerIdentity) : Bool :=
  if peer.flags &&& sgxFlagsInitted = 0 then false
  else if env.release = true ∧ peer.flags &&& sgxFlagsDebug ≠ 0 then false
  else true

/-- A list that is neither a whitelist nor a blacklist falls through to `return true`. -/
def isCertifiedSigner (env : TrustConfig) (peer : PeerIdentity)
    (policy : Option AccessListPackage) : Bool :=
  if env.flagsAccepted peer = false then false
  else
    match policy with
    | none => peer.mrSigner = env.selfSigner
    | some p =>
      if p.accessListType = accessPolicyWhitelist then inWhitelist peer p.accessList
      else if p.accessListType = accessPolicyBlacklist then outsideBlacklist peer p.accessList
      else true

/-- What `fflib` does with policy packages: a package holds value-initialised members when it is
made, and `from_bytes` may throw. -/
structure PolicyPackages where
  made : AccessListPackage
  fromBytes : Bytes → Option AccessListPackage
  value_initialised : made = ⟨0, []⟩

/-- The policy is replaced by a new package before the buffer is decoded into it. -/
def setAccessControlPolicy (lib : PolicyPackages) (_policy : Option AccessListPackage)
    (buffer : Bytes) : Status × Option AccessListPackage :=
  let accessControlPolicy := some lib.made
  match lib.fromBytes buffer with
  | none => (.error .invalidParameter, accessControlPolicy)
  | some p => (.ok (), some p)

def verifyPeerEnclaveTrust (env : TrustConfig) (policy : Option AccessListPackage)
    (peer : Option PeerIdentity) : Status :=
  match peer with
  | none => .error .invalidParameterError
  | some identity =>
    if isCertifiedSigner env identity policy = false then .error .enclaveTrustError else .ok ()

section Decision

def AccessItem.ValidType (item : AccessItem) : Prop :=
  item.accessDataType = accessPolicyEnclave ∨ item.accessDataType = accessPolicySigner

instance : DecidablePred AccessItem.ValidType := fun _ => inferInstanceAs (Decidable (_ ∨ _))

/-- An item of 32 bytes that names the peer. -/
def AccessItem.Matches (item : AccessItem) (peer : PeerIdentity) : Prop :=
  item.accessDataType = accessPolicyEnclave ∧ item.data = peer.mrEnclave.1 ∨
    item.accessDataType = accessPolicySigner ∧ item.data = peer.mrSigner.1

lemma equals_iff (item : AccessItem) (m : Measurement) :
    item.equals m = true ↔ item.data = m.1 := by
  simp only [AccessItem.equals, decide_eq_true_eq]
  constructor
  · rintro ⟨hlen, heq⟩
    rw [heq, ← hlen, List.take_length]
  · intro heq
    have hlen : item.data.length = 32 := heq ▸ m.2
    exact ⟨hlen, by rw [← heq, ← hlen, List.take_length]⟩

lemma check_found_iff (item : AccessItem) (peer : PeerIdentity) :
    item.check peer = .found ↔ item.Matches peer := by
  unfold AccessItem.check AccessItem.Matches
  split_ifs with he hm hs hm <;> simp_all [equals_iff, accessPolicyEnclave, accessPolicySigner]

lemma check_unexpected_iff (item : AccessItem) (peer : PeerIdentity) :
    item.check peer = .unexpected ↔ ¬item.ValidType := by
  unfold AccessItem.check AccessItem.ValidType
  split_ifs <;> simp_all

lemma AccessItem.Matches.validType {item : AccessItem} {peer : PeerIdentity}
    (h : item.Matches peer) : item.ValidType := by
  rcases h with ⟨ht, -⟩ | ⟨ht, -⟩
  · exact Or.inl ht
  · exact Or.inr ht

/-- The items that come before the first one with an unexpected type. -/
def validItems (list : List AccessItem) : List AccessItem := list.takeWhile (·.ValidType)

lemma validItems_cons_of_valid {item : AccessItem} (h : item.ValidType) (list : List AccessItem) :
    validItems (item :: list) = item :: validItems list := by
  simp [validItems, h]

lemma validItems_cons_of_not {item : AccessItem} (h : ¬item.ValidType) (list : List AccessItem) :
    validItems (item :: list) = [] := by
  simp [validItems, h]

theorem inWhitelist_iff (peer : PeerIdentity) (list : List AccessItem) :
    inWhitelist peer list = true ↔ ∃ item ∈ validItems list, item.Matches peer := by
  induction list with
  | nil => simp [inWhitelist, validItems]
  | cons item list ih =>
    unfold inWhitelist
    cases hc : item.check peer with
    | found =>
      have hm := (check_found_iff item peer).mp hc
      simp [validItems_cons_of_valid hm.validType, hm]
    | passed =>
      have hm : ¬item.Matches peer := by simp [← check_found_iff, hc]
      have hv : item.ValidType := by
        have hne := (check_unexpected_iff item peer).not
        simpa [hc] using hne
      simp [validItems_cons_of_valid hv, hm, ih]
    | unexpected =>
      simp [validItems_cons_of_not ((check_unexpected_iff item peer).mp hc)]

theorem outsideBlacklist_iff (peer : PeerIdentity) (list : List AccessItem) :
    outsideBlacklist peer list = true ↔ ∀ item ∈ list, item.ValidType ∧ ¬item.Matches peer := by
  induction list with
  | nil => simp [outsideBlacklist]
  | cons item list ih =>
    unfold outsideBlacklist
    have hfound := check_found_iff item peer
    have hunexpected := check_unexpected_iff item peer
    cases hc : item.check peer with
    | found => simp [hfound.mp hc]
    | passed =>
      rw [hc] at hfound hunexpected
      simp only [reduceCtorEq, false_iff, not_not] at hfound hunexpected
      simp [hfound, hunexpected, ih]
    | unexpected => simp [hunexpected.mp hc]

/-- What a peer needs besides its flags. A list of another type lets nobody in. -/
def Permitted (env : TrustConfig) (peer : PeerIdentity) : Option AccessListPackage → Prop
  | none => peer.mrSigner = env.selfSigner
  | some p =>
      p.accessListType = accessPolicyWhitelist ∧ (∃ item ∈ p.accessList, item.Matches peer) ∨
      p.accessListType = accessPolicyBlacklist ∧
        ∀ item ∈ p.accessList, item.ValidType ∧ ¬item.Matches peer

lemma flagsAccepted_initted {env : TrustConfig} {peer : PeerIdentity}
    (h : env.flagsAccepted peer = true) : peer.flags &&& sgxFlagsInitted ≠ 0 := by
  intro hzero
  simp [TrustConfig.flagsAccepted, hzero] at h

lemma isCertifiedSigner_none (env : TrustConfig) (peer : PeerIdentity) :
    isCertifiedSigner env peer none = true ↔
      env.flagsAccepted peer = true ∧ peer.mrSigner = env.selfSigner := by
  cases hf : env.flagsAccepted peer <;> simp [isCertifiedSigner, hf]

theorem isCertifiedSigner_some (env : TrustConfig) (peer : PeerIdentity) (p : AccessListPackage) :
    isCertifiedSigner env peer (some p) = true ↔ env.flagsAccepted peer = true ∧
      (p.accessListType = accessPolicyWhitelist →
        ∃ item ∈ validItems p.accessList, item.Matches peer) ∧
      (p.accessListType = accessPolicyBlacklist →
        ∀ item ∈ p.accessList, item.ValidType ∧ ¬item.Matches peer) := by
  rw [← inWhitelist_iff, ← outsideBlacklist_iff]
  cases hf : env.flagsAccepted peer with
  | false => simp [isCertifiedSigner, hf]
  | true =>
    have hne : accessPolicyWhitelist ≠ accessPolicyBlacklist := by decide
    by_cases hw : p.accessListType = accessPolicyWhitelist
    · simp [isCertifiedSigner, hf, hw, hne]
    · by_cases hb : p.accessListType = accessPolicyBlacklist
      · simp [isCertifiedSigner, hf, hb, hne.symm]
      · simp [isCertifiedSigner, hf, hw, hb]

/-- The decision fails closed exactly on peers without the flags and on policies whose type is
one of the two that there are. -/
theorem certified_only_if_permitted_iff (env : TrustConfig) (peer : PeerIdentity)
    (policy : Option AccessListPackage) :
    (isCertifiedSigner env peer policy = true →
        peer.flags &&& sgxFlagsInitted ≠ 0 ∧ Permitted env peer policy) ↔
      env.flagsAccepted peer = false ∨ ∀ p, policy = some p →
        p.accessListType = accessPolicyWhitelist ∨ p.accessListType = accessPolicyBlacklist := by
  cases hf : env.flagsAccepted peer with
  | false => simp [isCertifiedSigner, hf]
  | true =>
    have hinit := flagsAccepted_initted hf
    cases policy with
    | none => simp [isCertifiedSigner_none, Permitted, hinit]
    | some p =>
      simp only [isCertifiedSigner_some, hf, hinit, true_and, Permitted, ne_eq, not_false_eq_true,
        Option.some.injEq, forall_eq', reduceCtorEq, false_or]
      constructor
      · intro h
        by_contra hother
        rw [not_or] at hother
        rcases h ⟨fun hw => absurd hw hother.1, fun hb => absurd hb hother.2⟩ with h | h
        · exact hother.1 h.1
        · exact hother.2 h.1
      · rintro (hw | hb) ⟨hwhite, hblack⟩
        · obtain ⟨item, hitem, hm⟩ := hwhite hw
          exact Or.inl ⟨hw, item, (List.takeWhile_sublist _).subset hitem, hm⟩
        · exact Or.inr ⟨hb, hblack hb⟩

/-- A peer of another signer, under a policy whose type is not set. -/
theorem unset_type_lets_stranger_in :
    let env : TrustConfig := ⟨true, ⟨List.replicate 32 7, rfl⟩⟩
    let peer : PeerIdentity := ⟨sgxFlagsInitted, demoPeer, demoPeer⟩
    ¬(isCertifiedSigner env peer (some ⟨0, []⟩) = true →
      peer.flags &&& sgxFlagsInitted ≠ 0 ∧ Permitted env peer (some ⟨0, []⟩)) := by
  intro env peer h
  obtain ⟨-, hpermitted⟩ := h (by decide)
  rcases hpermitted with ⟨htype, -⟩ | ⟨htype, -⟩ <;> exact absurd htype (by decide)

end Decision

section Update
variable (env : TrustConfig) (lib : PolicyPackages)

/-- The access decision before and after a call of `set_access_control_policy`. -/
def AtomicUpdate (policy : Option AccessListPackage) (buffer : Bytes) : Prop :=
  match setAccessControlPolicy lib policy buffer with
  | (.error _, policy') =>
      ∀ peer, verifyPeerEnclaveTrust env policy' peer = verifyPeerEnclaveTrust env policy peer
  | (.ok (), policy') => ∃ p, lib.fromBytes buffer = some p ∧
      ∀ peer, verifyPeerEnclaveTrust env policy' peer = verifyPeerEnclaveTrust env (some p) peer

/-- A policy that turns no peer down: a whitelist with all measurements, a blacklist with nothing
that can be compared, or a list of another type. -/
def LetsAllIn : Option AccessListPackage → Prop
  | none => False
  | some p =>
      (p.accessListType = accessPolicyWhitelist →
        (∀ m : Measurement, ⟨m.1, accessPolicyEnclave⟩ ∈ validItems p.accessList) ∨
        ∀ m : Measurement, ⟨m.1, accessPolicySigner⟩ ∈ validItems p.accessList) ∧
      (p.accessListType = accessPolicyBlacklist →
        ∀ item ∈ p.accessList, item.ValidType ∧ item.data.length ≠ 32)

def initted (mrEnclave mrSigner : Measurement) : PeerIdentity :=
  ⟨sgxFlagsInitted, mrEnclave, mrSigner⟩

lemma flagsAccepted_of_initted (mrEnclave mrSigner : Measurement) :
    env.flagsAccepted (initted mrEnclave mrSigner) = true := by
  have hinit : sgxFlagsInitted ≠ 0 := by decide
  have hdebug : sgxFlagsInitted &&& sgxFlagsDebug = 0 := by decide
  simp [TrustConfig.flagsAccepted, initted, hinit, hdebug]

lemma exists_other_measurement (m : Measurement) : ∃ m' : Measurement, m' ≠ m := by
  by_cases h : m.1 = List.replicate 32 0
  · refine ⟨⟨List.replicate 32 1, rfl⟩, ?_⟩
    rintro rfl
    revert h
    decide
  · refine ⟨⟨List.replicate 32 0, rfl⟩, ?_⟩
    rintro rfl
    exact h rfl

lemma matches_initted_iff (item : AccessItem) (mrEnclave mrSigner : Measurement) :
    item.Matches (initted mrEnclave mrSigner) ↔
      item = ⟨mrEnclave.1, accessPolicyEnclave⟩ ∨ item = ⟨mrSigner.1, accessPolicySigner⟩ := by
  obtain ⟨data, type⟩ := item
  simp [AccessItem.Matches, initted, and_comm]

lemma whitelist_lets_all_in_iff (list : List AccessItem) :
    (∀ mrEnclave mrSigner, ∃ item ∈ validItems list, item.Matches (initted mrEnclave mrSigner)) ↔
      (∀ m : Measurement, ⟨m.1, accessPolicyEnclave⟩ ∈ validItems list) ∨
        ∀ m : Measurement, ⟨m.1, accessPolicySigner⟩ ∈ validItems list := by
  constructor
  · intro h
    by_contra hnot
    simp only [not_or, not_forall] at hnot
    obtain ⟨⟨e, he⟩, s, hs⟩ := hnot
    obtain ⟨item, hitem, hm⟩ := h e s
    rcases (matches_initted_iff item e s).mp hm with rfl | rfl
    · exact he hitem
    · exact hs hitem
  · rintro (h | h) mrEnclave mrSigner
    · exact ⟨_, h mrEnclave, (matches_initted_iff _ _ _).mpr (Or.inl rfl)⟩
    · exact ⟨_, h mrSigner, (matches_initted_iff _ _ _).mpr (Or.inr rfl)⟩

lemma blacklist_lets_all_in_iff (list : List AccessItem) :
    (∀ mrEnclave mrSigner, ∀ item ∈ list,
        item.ValidType ∧ ¬item.Matches (initted mrEnclave mrSigner)) ↔
      ∀ item ∈ list, item.ValidType ∧ item.data.length ≠ 32 := by
  constructor
  · intro h item hitem
    refine ⟨(h demoPeer demoPeer item hitem).1, ?_⟩
    intro hlen
    refine (h ⟨item.data, hlen⟩ ⟨item.data, hlen⟩ item hitem).2 ?_
    rcases (h demoPeer demoPeer item hitem).1 with ht | ht
    · exact Or.inl ⟨ht, rfl⟩
    · exact Or.inr ⟨ht, rfl⟩
  · intro h mrEnclave mrSigner item hitem
    refine ⟨(h item hitem).1, ?_⟩
    rintro (⟨-, heq⟩ | ⟨-, heq⟩)
    · exact (h item hitem).2 (heq ▸ mrEnclave.2)
    · exact (h item hitem).2 (heq ▸ mrSigner.2)

lemma certified_initted_of_all {policy : Option AccessListPackage}
    (h : ∀ peer, isCertifiedSigner env peer policy = env.flagsAccepted peer)
    (mrEnclave mrSigner : Measurement) :
    isCertifiedSigner env (initted mrEnclave mrSigner) policy = true := by
  rw [h, flagsAccepted_of_initted]

theorem lets_all_in_iff (policy : Option AccessListPackage) :
    (∀ peer, isCertifiedSigner env peer policy = env.flagsAccepted peer) ↔ LetsAllIn policy := by
  cases policy with
  | none =>
    simp only [LetsAllIn, iff_false]
    intro h
    obtain ⟨m, hm⟩ := exists_other_measurement env.selfSigner
    have hc := certified_initted_of_all env h m m
    exact hm ((isCertifiedSigner_none env _).mp hc).2
  | some p =>
    constructor
    · intro h
      have hall := fun e s =>
        (isCertifiedSigner_some env _ p).mp (certified_initted_of_all env h e s)
      exact ⟨fun hw => (whitelist_lets_all_in_iff _).mp fun e s => (hall e s).2.1 hw,
        fun hb => (blacklist_lets_all_in_iff _).mp fun e s => (hall e s).2.2 hb⟩
    · rintro ⟨hwhite, hblack⟩ peer
      rw [Bool.eq_iff_iff, isCertifiedSigner_some]
      refine and_iff_left ⟨fun hw => ?_, fun hb => ?_⟩
      · exact (whitelist_lets_all_in_iff _).mpr (hwhite hw) peer.mrEnclave peer.mrSigner
      · exact (blacklist_lets_all_in_iff _).mpr (hblack hb) peer.mrEnclave peer.mrSigner

lemma verifyPeer_ok_iff (policy : Option AccessListPackage) (peer : PeerIdentity) :
    verifyPeerEnclaveTrust env policy (some peer) = .ok () ↔
      isCertifiedSigner env peer policy = true := by
  cases h : isCertifiedSigner env peer policy <;> simp [verifyPeerEnclaveTrust, h]

lemma verifyPeer_congr_iff (policy policy' : Option AccessListPackage) :
    (∀ peer, verifyPeerEnclaveTrust env policy peer = verifyPeerEnclaveTrust env policy' peer) ↔
      ∀ peer, isCertifiedSigner env peer policy = isCertifiedSigner env peer policy' := by
  constructor
  · intro h peer
    rw [Bool.eq_iff_iff, ← verifyPeer_ok_iff, ← verifyPeer_ok_iff, h]
  · intro h peer
    cases peer with
    | none => rfl
    | some identity => simp [verifyPeerEnclaveTrust, h identity]

/-- A failed update is felt unless the policy before it turned no peer down. -/
theorem policy_update_atomic_iff (policy : Option AccessListPackage) (buffer : Bytes) :
    AtomicUpdate env lib policy buffer ↔ lib.fromBytes buffer ≠ none ∨ LetsAllIn policy := by
  unfold AtomicUpdate setAccessControlPolicy
  cases hdecode : lib.fromBytes buffer with
  | some p => simp
  | none =>
    have hmade : ∀ peer, isCertifiedSigner env peer (some lib.made) = env.flagsAccepted peer := by
      rw [lets_all_in_iff, lib.value_initialised]
      exact ⟨fun h => absurd h (by decide), fun h => absurd h (by decide)⟩
    simp only [ne_eq, not_true_eq_false, false_or]
    rw [verifyPeer_congr_iff, ← lets_all_in_iff env]
    simp only [hmade, eq_comm]

/-- A library that decodes nothing. -/
def rejectingPackages : PolicyPackages := ⟨⟨0, []⟩, fun _ => none, rfl⟩

/-- A whitelist for one enclave, then a buffer that is no package: every enclave is let in. -/
theorem failed_update_opens_whitelist :
    ¬AtomicUpdate ⟨true, ⟨List.replicate 32 7, rfl⟩⟩ rejectingPackages
      (some ⟨accessPolicyWhitelist, [⟨List.replicate 32 9, accessPolicyEnclave⟩]⟩) [] := by
  intro h
  have hpeer := h (some (initted demoPeer demoPeer))
  revert hpeer
  decide

end Update
end PrivacyComputing.KeyManager
