import LogosCore.Messages

/-!
# Validators of an epoch's delegates

`DelegateKeyStore`, the aggregate check of `MessageValidator` and `ValidatorBuilder`, which finds
the public keys of the delegates that approved a block. A computation that ends in
`trace_and_halt` is `none`.
-/

namespace LogosCore.Validator

open Option Quorum

/-- The BLS library: `π` are serialised and `κ` deserialised public keys. -/
structure Bls (H σ π κ : Type) where
  deserialize : π → Option κ
  default : κ
  aggregateFrom : List κ → κ
  verify : κ → H → σ → Bool

structure Delegate (π : Type) where
  blsPub : π
  vote : BitVec 128
  stake : BitVec 128

structure EpochBlock (H π : Type) where
  epochNumber : BitVec 32
  previous : H
  delegates : DelegateId → Delegate π

structure EpochTip (H : Type) where
  epoch : BitVec 32
  digest : H

structure EpochStore (H π : Type) where
  epochTipGet : Option (EpochTip H)
  epochGet : H → Option (EpochBlock H π)

/-- `MessageValidator`, which is its `DelegateKeyStore`. -/
abbrev MessageValidator (κ : Type) := DelegateId → Option κ

variable {H σ π κ : Type}

/-- `OnPublicKey` for each delegate of an epoch block; a key that does not deserialise is not
stored. -/
def MessageValidator.ofDelegates (bls : Bls H σ π κ) (delegates : DelegateId → Delegate π) :
    MessageValidator κ :=
  fun id => bls.deserialize (delegates id).blsPub

def MessageValidator.getAggregatedPublicKey (bls : Bls H σ π κ) (v : MessageValidator κ)
    (map : ParticipationMap) : κ :=
  if ∀ i ∈ map,(v i).isSome then
    bls.aggregateFrom (((List.finRange numDelegates).filter (· ∈ map)).filterMap v)
  else bls.default

def MessageValidator.validate (bls : Bls H σ π κ) (v : MessageValidator κ) (hash : H)
    (sig : AggSignature σ) : Bool :=
  bls.verify (v.getAggregatedPublicKey bls sig.map) hash sig.sig

structure ValidatorBuilder (κ : Type) where
  epochPki : List (BitVec 32 × MessageValidator κ)
  cachedEpoch : BitVec 32
  cachedValidator : Option (MessageValidator κ)

def ValidatorBuilder.empty : ValidatorBuilder κ := ⟨[],0,none⟩

def maxCached : ℕ := 3

def ValidatorBuilder.find (b : ValidatorBuilder κ) (n : BitVec 32) : Option (MessageValidator κ) :=
  (b.epochPki.find? fun e => e.1 = n).map Prod.snd

/-- The `uint16_t` minimum of the cached epoch numbers. -/
def minCached (epochPki : List (BitVec 32 × MessageValidator κ)) : BitVec 32 :=
  epochPki.foldl (fun min e => if e.1 < min then e.1 else min) 65535

/-- Store a validator and, above `MAX_CACHED` entries, erase the oldest. -/
def ValidatorBuilder.remember (b : ValidatorBuilder κ) (n : BitVec 32) (v : MessageValidator κ) :
    ValidatorBuilder κ :=
  let epochPki := b.epochPki ++ [(n,v)]
  if maxCached < epochPki.length then
    { b with epochPki := epochPki.filter fun e => e.1 ≠ minCached epochPki }
  else { b with epochPki }

/-- The loop along `previous` to the first epoch block not above `n`; `fuel` bounds its rounds. -/
def findEpoch (store : EpochStore H π) (n : BitVec 32) : ℕ → H → Option (EpochBlock H π)
  | 0,_ => none
  | fuel + 1,hash =>
    match store.epochGet hash with
    | none => none
    | some epoch => if n < epoch.epochNumber then findEpoch store n fuel epoch.previous else some epoch

/-- One round for each epoch number down from the tip. -/
def EpochTip.rounds (tip : EpochTip H) : ℕ := tip.epoch.toNat + 1

/-- The part of `GetValidator` that reads the store: `none` is a halt, `some none` a null pointer. -/
def buildValidator (bls : Bls H σ π κ) (store : EpochStore H π) (n : BitVec 32) :
    Option (Option (MessageValidator κ)) :=
  match store.epochTipGet with
  | none => none
  | some tip =>
    if tip.epoch < n then some none
    else
      match findEpoch store n tip.rounds tip.digest with
      | none => none
      | some epoch =>
        if n = epoch.epochNumber then some (some (MessageValidator.ofDelegates bls epoch.delegates))
        else none

def getValidator (bls : Bls H σ π κ) (store : EpochStore H π) (b : ValidatorBuilder κ)
    (epochNumber : BitVec 32) : Option (Option (MessageValidator κ) × ValidatorBuilder κ) :=
  let n := epochNumber - 2
  if b.cachedValidator.isSome ∧ b.cachedEpoch = n then some (b.cachedValidator,b)
  else
    match b.find n with
    | some v => some (some v,{ b with cachedEpoch := n,cachedValidator := some v })
    | none =>
      match buildValidator bls store n with
      | none => none
      | some none => some (none,b)
      | some (some v) =>
        some (some v,{ b.remember n v with cachedEpoch := n,cachedValidator := some v })

/-- The epoch block that holds the delegates of epoch `n + 2`, as found from the tip. -/
def epochBlockOf (store : EpochStore H π) (n : BitVec 32) : Option (EpochBlock H π) :=
  match store.epochTipGet with
  | none => none
  | some tip =>
    if tip.epoch < n then none
    else (findEpoch store n tip.rounds tip.digest).filter fun epoch => n = epoch.epochNumber

variable {n : BitVec 32} {bls : Bls H σ π κ} {store : EpochStore H π} {b : ValidatorBuilder κ}

theorem buildValidator_some {r : Option (MessageValidator κ)}
    (h : buildValidator bls store n = some r) :
    r = (epochBlockOf store n).map fun epoch => .ofDelegates bls epoch.delegates := by
  unfold buildValidator at h
  unfold epochBlockOf
  split at h
  · cases h
  · next tip htip =>
    split_ifs at h ⊢ with hlt
    · cases h
      rfl
    · split at h
      · cases h
      · next epoch hfind =>
        rw [hfind]
        split_ifs at h with hn
        cases h
        simp [Option.filter,hn]

theorem buildValidator_of_epochBlockOf {epoch : EpochBlock H π}
    (h : epochBlockOf store n = some epoch) :
    buildValidator bls store n = some (some (.ofDelegates bls epoch.delegates)) := by
  unfold epochBlockOf at h
  unfold buildValidator
  split at h
  · cases h
  · next tip htip =>
    split_ifs at h ⊢ with hlt
    obtain ⟨hfind,hn⟩ := filter_eq_some_iff.mp h
    simp only [hfind]
    rw [if_pos (by simpa using hn)]

/-- Every cached validator holds the keys of the stored epoch block of its number. -/
structure ValidatorBuilder.Faithful (bls : Bls H σ π κ) (store : EpochStore H π)
    (b : ValidatorBuilder κ) : Prop where
  pki : ∀ e ∈ b.epochPki,∃ epoch,epochBlockOf store e.1 = some epoch ∧
    e.2 = .ofDelegates bls epoch.delegates
  cached : ∀ v,b.cachedValidator = some v → ∃ epoch,
    epochBlockOf store b.cachedEpoch = some epoch ∧ v = .ofDelegates bls epoch.delegates

theorem ValidatorBuilder.empty_faithful (bls : Bls H σ π κ) (store : EpochStore H π) :
    ValidatorBuilder.empty.Faithful bls store := by
  constructor <;> simp [ValidatorBuilder.empty]

theorem ValidatorBuilder.find_eq_some {v : MessageValidator κ} (h : b.find n = some v) :
    (n,v) ∈ b.epochPki := by
  obtain ⟨e,he,rfl⟩ := map_eq_some_iff.mp h
  have hn : e.1 = n := by simpa using List.find?_some he
  rw [← hn]
  exact List.mem_of_find?_eq_some he

theorem ValidatorBuilder.mem_remember {v : MessageValidator κ}
    {e : BitVec 32 × MessageValidator κ} (h : e ∈ (b.remember n v).epochPki) :
    e ∈ b.epochPki ∨ e = (n,v) := by
  have hmem : e ∈ b.epochPki ++ [(n,v)] := by
    unfold ValidatorBuilder.remember at h
    dsimp only at h
    split_ifs at h
    · exact List.mem_of_mem_filter h
    · exact h
  simpa using hmem

/-- A faithful cache is transparent: the result is what the store holds, and it stays faithful. -/
theorem getValidator_spec {b' : ValidatorBuilder κ} {e : BitVec 32}
    {r : Option (MessageValidator κ)} (hf : b.Faithful bls store)
    (h : getValidator bls store b e = some (r,b')) :
    r = ((epochBlockOf store (e - 2)).map fun epoch => .ofDelegates bls epoch.delegates) ∧
      b'.Faithful bls store := by
  unfold getValidator at h
  dsimp only at h
  split_ifs at h with hc
  · obtain ⟨rfl,rfl⟩ := Prod.mk.inj (some.inj h)
    obtain ⟨v,hv⟩ := isSome_iff_exists.mp hc.1
    obtain ⟨epoch,hepoch,rfl⟩ := hf.cached v hv
    rw [← hc.2,hepoch,hv]
    exact ⟨rfl,hf⟩
  · split at h
    · next v hv =>
      obtain ⟨rfl,rfl⟩ := Prod.mk.inj (some.inj h)
      obtain ⟨epoch,hepoch,rfl⟩ := hf.pki _ (ValidatorBuilder.find_eq_some hv)
      rw [hepoch]
      refine ⟨rfl,hf.pki,fun v' hv' => ⟨epoch,hepoch,?_⟩⟩
      exact (some.inj hv').symm
    · split at h
      · cases h
      · next hb =>
        obtain ⟨rfl,rfl⟩ := Prod.mk.inj (some.inj h)
        exact ⟨buildValidator_some hb,hf⟩
      · next v hb =>
        obtain ⟨rfl,rfl⟩ := Prod.mk.inj (some.inj h)
        have hr := buildValidator_some hb
        obtain ⟨epoch,hepoch,hv⟩ := map_eq_some_iff.mp hr.symm
        refine ⟨hr,fun e he => ?_,fun v' hv' => ⟨epoch,hepoch,?_⟩⟩
        · rcases ValidatorBuilder.mem_remember he with he | rfl
          · exact hf.pki e he
          · exact ⟨epoch,hepoch,hv.symm⟩
        · exact (some.inj hv').symm.trans hv.symm

theorem getValidator_of_epochBlockOf {e : BitVec 32} {epoch : EpochBlock H π}
    (hf : b.Faithful bls store) (h : epochBlockOf store (e - 2) = some epoch) :
    ∃ b',getValidator bls store b e = some (some (.ofDelegates bls epoch.delegates),b') := by
  have hsome : ∃ r,getValidator bls store b e = some r := by
    unfold getValidator
    dsimp only
    split_ifs
    · exact ⟨_,rfl⟩
    · split
      · exact ⟨_,rfl⟩
      · rw [buildValidator_of_epochBlockOf h]
        exact ⟨_,rfl⟩
  obtain ⟨⟨r,b'⟩,hr⟩ := hsome
  obtain ⟨rfl,-⟩ := getValidator_spec hf hr
  rw [h] at hr
  exact ⟨b',hr⟩

end LogosCore.Validator
