import PrivacyComputing.RunsHistory
import PrivacyComputing.HashChain
import PrivacyComputing.CryptoPack

/-! The enclave side of a data source: `sealed_data_provider` and
`raw_data_provider`. Batches come from the untrusted `next_data_batch` ocall, are
hashed as a whole when they are accepted and handed out one item at a time. -/
namespace PrivacyComputing.DataProvider
open Runs

/-- The magic string `"Fidelius"` that every data hash starts from. -/
def fidelius : Bytes := [70, 105, 100, 101, 108, 105, 117, 115]

/-- A sealed source decrypts its batches with the owner's key, a raw source takes them as
they are. -/
inductive Kind
  | sealed (mPrivateKey mPublicKey : Bytes)
  | raw
  deriving DecidableEq, Repr

structure Provider where
  kind : Kind
  mExpectDataHash : Bytes
  mDataReachEnd : Bool
  mActualDataHash : Bytes
  mItems : List Bytes
  mItemIndex : ℕ
  deriving DecidableEq, Repr

/-- The answer of the host to `next_data_batch`: the ocall itself may fail, it may return
an error status, or it hands over a buffer. -/
inductive BatchAnswer
  | ocallFails
  | status (e : StxError)
  | batch (data : Bytes)
  deriving DecidableEq, Repr

/-- How `process` ends: on the next item of the batch, on the first item of a batch it has
just accepted, with `false`, or by an exception. -/
inductive Processed
  | advanced
  | accepted (items : List Bytes)
  | ended
  | threw
  deriving DecidableEq, Repr

section Provider
variable (c : CryptoPack)

/-- The constructor of `sealed_data_provider` ignores the status of
`generate_pkey_from_skey`; a failed call leaves `m_public_key` as an unset buffer. -/
def sealedKind (privateKey unset : Bytes) : Kind :=
  match c.generatePkeyFromSkey privateKey with
  | .ok pkey => .sealed privateKey pkey
  | .error _ => .sealed privateKey unset

/-- No constructor sets `m_item_index`, so its first value is whatever memory held. -/
def new (kind : Kind) (dataHash : Bytes) (memory : ℕ) : Provider where
  kind := kind
  mExpectDataHash := dataHash
  mDataReachEnd := false
  mActualDataHash := c.hash256 fidelius
  mItems := []
  mItemIndex := memory

/-- The key under which the host looks the source up. -/
def Provider.batchKey (p : Provider) : Bytes :=
  match p.kind with
  | .sealed _ pkey => p.mExpectDataHash ++ pkey
  | .raw => p.mExpectDataHash

def Provider.openBatch (p : Provider) (data : Bytes) : Outcome Bytes :=
  match p.kind with
  | .sealed skey _ => c.decryptMessageWithPrefix skey data cryptoPrefixArbitrary
  | .raw => .ok data

variable (decode : Bytes → Option (List Bytes))

/-- The `try` block of `process`. Unmarshalling may throw; an empty batch ends the data. -/
def Provider.takeBatch (p : Provider) (msg : Bytes) : Processed × Provider :=
  match decode msg with
  | none => (.ended, { p with mDataReachEnd := true })
  | some [] => (.ended, { p with mItems := [], mDataReachEnd := true })
  | some (b :: bs) =>
    (.accepted (b :: bs), { p with
      mItems := b :: bs
      mActualDataHash := HashChain.extend c.hash256 p.mActualDataHash (b :: bs)
      mItemIndex := 0 })

variable {H : Type*} (nextDataBatch : Bytes → H → BatchAnswer × H)

def Provider.process (p : Provider) (h : H) : Processed × Provider × H :=
  if p.mDataReachEnd then (.ended, p, h)
  else if p.mItemIndex + 1 < p.mItems.length then
    (.advanced, { p with mItemIndex := p.mItemIndex + 1 }, h)
  else
    let answer := nextDataBatch p.batchKey h
    match answer.1 with
    | .ocallFails => (.threw, p, answer.2)
    | .status _ => (.ended, { p with mDataReachEnd := true }, answer.2)
    | .batch data =>
      match p.openBatch c data with
      | .throws => (.threw, p, answer.2)
      | .err _ => (.ended, { p with mDataReachEnd := true }, answer.2)
      | .ok msg =>
        let taken := p.takeBatch c decode msg
        (taken.1, taken.2, answer.2)

end Provider

/-- `m_items[m_item_index]`, undefined outside the batch. -/
def Provider.outputValue (p : Provider) : Option Bytes := p.mItems[p.mItemIndex]?

def Provider.dataHash (p : Provider) : Bytes := p.mActualDataHash

def Provider.checkActualDataHash (p : Provider) : Status :=
  if p.dataHash ≠ p.mExpectDataHash then .error .dataHashNotSameAsExpect else .ok ()

def Processed.isTrue : Processed → Bool
  | .advanced | .accepted _ => true
  | .ended | .threw => false

/-- The items of the batch that a call of `process` accepted. -/
def Processed.items : Processed → List Bytes
  | .accepted items => items
  | _ => []

inductive Call
  | process
  | outputValue
  deriving DecidableEq, Repr

/-- A provider in use. `received` collects the items of the accepted batches, `exposed` what
`output_value` gives after each `process() = true`, `ended` whether `process` has
returned `false`. -/
structure Session (H : Type*) where
  provider : Provider
  host : H
  received : List Bytes
  exposed : List (Option Bytes)
  ended : Bool

section Session
variable (c : CryptoPack) (decode : Bytes → Option (List Bytes))
variable {H : Type*} (nextDataBatch : Bytes → H → BatchAnswer × H)

def Session.start (p : Provider) (h : H) : Session H := ⟨p, h, [], [], false⟩

def Session.step (s : Session H) : Call → Session H
  | .outputValue => s
  | .process =>
    let r := s.provider.process c decode nextDataBatch s.host
    { provider := r.2.1
      host := r.2.2
      received := s.received ++ r.1.items
      exposed := if r.1.isTrue then s.exposed ++ [r.2.1.outputValue] else s.exposed
      ended := s.ended || r.1 == .ended }

/-- Everything one call of `process` can do to the provider. -/
inductive ProcessSpec (p : Provider) : Processed → Provider → Prop
  | advanced (live : p.mDataReachEnd = false) (more : p.mItemIndex + 1 < p.mItems.length) :
      ProcessSpec p .advanced { p with mItemIndex := p.mItemIndex + 1 }
  | accepted (b : Bytes) (bs : List Bytes) (live : p.mDataReachEnd = false)
      (spent : p.mItems.length ≤ p.mItemIndex + 1) :
      ProcessSpec p (.accepted (b :: bs)) { p with
        mItems := b :: bs
        mActualDataHash := HashChain.extend c.hash256 p.mActualDataHash (b :: bs)
        mItemIndex := 0 }
  | ended (q : Provider) (spent : p.mDataReachEnd = true ∨ p.mItems.length ≤ p.mItemIndex + 1)
      (reachedEnd : q.mDataReachEnd = true) (hash : q.mActualDataHash = p.mActualDataHash)
      (expect : q.mExpectDataHash = p.mExpectDataHash) : ProcessSpec p .ended q
  | threw : ProcessSpec p .threw p

theorem takeBatch_spec (p : Provider) (msg : Bytes) (live : p.mDataReachEnd = false)
    (spent : p.mItems.length ≤ p.mItemIndex + 1) :
    ProcessSpec c p (p.takeBatch c decode msg).1 (p.takeBatch c decode msg).2 := by
  unfold Provider.takeBatch
  split
  · exact .ended _ (.inr spent) rfl rfl rfl
  · exact .ended _ (.inr spent) rfl rfl rfl
  · exact .accepted _ _ live spent

theorem process_spec (p : Provider) (h : H) :
    ProcessSpec c p (p.process c decode nextDataBatch h).1
      (p.process c decode nextDataBatch h).2.1 := by
  unfold Provider.process
  split_ifs with reachedEnd more
  · exact .ended _ (.inl reachedEnd) reachedEnd rfl rfl
  · exact .advanced (by simpa using reachedEnd) more
  · have live : p.mDataReachEnd = false := by simpa using reachedEnd
    have spent : p.mItems.length ≤ p.mItemIndex + 1 := by omega
    dsimp only
    split
    · exact .threw
    · exact .ended _ (.inr spent) rfl rfl rfl
    · split
      · exact .threw
      · exact .ended _ (.inr spent) rfl rfl rfl
      · exact takeBatch_spec c decode p _ live spent

/-- The items of the accepted batches that have not been handed out yet. -/
def Provider.remaining (p : Provider) : List Bytes :=
  if p.mDataReachEnd then [] else p.mItems.drop (p.mItemIndex + 1)

lemma remaining_of_spent {p : Provider}
    (h : p.mDataReachEnd = true ∨ p.mItems.length ≤ p.mItemIndex + 1) : p.remaining = [] := by
  unfold Provider.remaining
  rcases h with h | h
  · simp [h]
  · simp [List.drop_eq_nil_of_le h]

lemma remaining_of_more {p : Provider} (live : p.mDataReachEnd = false)
    (more : p.mItemIndex + 1 < p.mItems.length) :
    p.remaining = p.mItems[p.mItemIndex + 1] ::
      { p with mItemIndex := p.mItemIndex + 1 }.remaining := by
  simp only [Provider.remaining, live, Bool.false_eq_true, if_false]
  exact List.drop_eq_getElem_cons more

structure Session.Inv (e : Bytes) (s : Session H) : Prop where
  expect : s.provider.mExpectDataHash = e
  hash : s.provider.mActualDataHash = HashChain.chain c.hash256 fidelius s.received
  reachedEnd : s.ended = true → s.provider.mDataReachEnd = true
  shown : ∃ shown, s.received = shown ++ s.provider.remaining ∧ s.exposed = shown.map some

theorem inv_start (kind : Kind) (e : Bytes) (memory : ℕ) (h : H) :
    (Session.start (new c kind e memory) h).Inv c e := by
  refine ⟨rfl, rfl, ?_, [], ?_, rfl⟩
  · intro h
    cases h
  · simp [Session.start, new, Provider.remaining]

theorem inv_process {e : Bytes} {s : Session H} (hs : s.Inv c e) :
    (s.step c decode nextDataBatch .process).Inv c e := by
  obtain ⟨shown, hr, he⟩ := hs.shown
  have hp := process_spec c decode nextDataBatch s.provider s.host
  unfold Session.step
  generalize s.provider.process c decode nextDataBatch s.host = r at hp ⊢
  obtain ⟨out, q, host⟩ := r
  dsimp only at hp ⊢
  cases hp with
  | advanced live more =>
    refine ⟨hs.expect, ?_, ?_, shown ++ [s.provider.mItems[s.provider.mItemIndex + 1]], ?_, ?_⟩
    · simpa [Processed.items] using hs.hash
    · simpa [live] using hs.reachedEnd
    · rw [hr, remaining_of_more live more]
      simp [Processed.items]
    · simp [Processed.isTrue, Provider.outputValue, he, more]
  | accepted b bs live spent =>
    have hrem : s.provider.remaining = [] := remaining_of_spent (.inr spent)
    refine ⟨hs.expect, ?_, ?_, shown ++ [b], ?_, ?_⟩
    · rw [hs.hash]
      exact (HashChain.chain_append c.hash256 fidelius s.received (b :: bs)).symm
    · intro h
      have := hs.reachedEnd (by simpa using h)
      simp [live] at this
    · rw [hr, hrem]
      simp [Provider.remaining, live, Processed.items]
    · simp [Processed.isTrue, Provider.outputValue, he]
  | ended _ spent reachedEnd hash expect =>
    have hrem : s.provider.remaining = [] := remaining_of_spent spent
    refine ⟨expect.trans hs.expect, ?_, fun _ => reachedEnd, shown, ?_, ?_⟩
    · simpa [Processed.items] using hash.trans hs.hash
    · rw [hr, hrem, remaining_of_spent (.inl reachedEnd)]
      simp [Processed.items]
    · simpa [Processed.isTrue] using he
  | threw =>
    refine ⟨hs.expect, ?_, ?_, shown, ?_, ?_⟩
    · simpa [Processed.items] using hs.hash
    · simpa using hs.reachedEnd
    · simpa [Processed.items] using hr
    · simpa [Processed.isTrue] using he

theorem inv_step {e : Bytes} (s : Session H) (call : Call) (hs : s.Inv c e) :
    (s.step c decode nextDataBatch call).Inv c e := by
  cases call with
  | process => exact inv_process c decode nextDataBatch hs
  | outputValue => exact hs

theorem inv_run (kind : Kind) (e : Bytes) (memory : ℕ) (h : H) (calls : List Call) :
    (run (Session.step c decode nextDataBatch)
      (Session.start (new c kind e memory) h) calls).Inv c e :=
  run_always (inv_step c decode nextDataBatch) calls (inv_start c kind e memory h)

/-- If the hash check of `end_parse_data_item` passes, the accepted items `L` chain to the
expected hash, the values handed out are a prefix of `L`, all of it once `process` has
returned `false`, and any other list with that hash comes with a collision. -/
theorem checked_data_is_expected (kind : Kind) (e : Bytes) (memory : ℕ) (h : H)
    (calls : List Call)
    (hcheck : (run (Session.step c decode nextDataBatch)
      (Session.start (new c kind e memory) h) calls).provider.checkActualDataHash = .ok ()) :
    let s := run (Session.step c decode nextDataBatch)
      (Session.start (new c kind e memory) h) calls
    HashChain.chain c.hash256 fidelius s.received = e ∧
    (∃ shown, shown <+: s.received ∧ s.exposed = shown.map some ∧
      (s.ended = true → shown = s.received)) ∧
    ∀ other, HashChain.chain c.hash256 fidelius other = e →
      other = s.received ∨ HashChain.Collision c.hash256 fidelius other s.received := by
  intro s
  have hs : s.Inv c e := inv_run c decode nextDataBatch kind e memory h calls
  have hchain : HashChain.chain c.hash256 fidelius s.received = e := by
    rw [← hs.hash, ← hs.expect]
    change s.provider.checkActualDataHash = .ok () at hcheck
    unfold Provider.checkActualDataHash Provider.dataHash at hcheck
    split_ifs at hcheck with hne
    exact not_not.mp hne
  refine ⟨hchain, ?_, ?_⟩
  · obtain ⟨shown, hr, he⟩ := hs.shown
    refine ⟨shown, ⟨_, hr.symm⟩, he, ?_⟩
    intro hend
    rw [hr, remaining_of_spent (.inl (hs.reachedEnd hend)), List.append_nil]
  · intro other ho
    apply HashChain.chain_eq_or_collision c.hash_size
    · decide
    · rw [ho, hchain]

end Session

/-- Two one-item batches of a raw source, then the end of the file. -/
def twoBatches : Bytes → ℕ → BatchAnswer × ℕ
  | _, 0 => (.batch [1], 1)
  | _, 1 => (.batch [2], 2)
  | _, n => (.status .sealedFileReachEnd, n)

theorem checked_data_two_batches :
    let e := HashChain.chain CryptoPack.plain.hash256 fidelius [[1], [2]]
    let s := run (Session.step CryptoPack.plain (fun b => some [b]) twoBatches)
      (Session.start (new CryptoPack.plain .raw e 7) 0)
      [.process, .outputValue, .process, .process]
    s.ended = true ∧ HashChain.chain CryptoPack.plain.hash256 fidelius s.received = e := by
  refine ⟨by decide, ?_⟩
  exact (checked_data_is_expected CryptoPack.plain (fun b => some [b]) twoBatches .raw
    (HashChain.chain CryptoPack.plain.hash256 fidelius [[1], [2]]) 7 0
    [.process, .outputValue, .process, .process] (by decide)).1

end PrivacyComputing.DataProvider
