import LogosCore.Validator

/-!
# Acceptance of approved blocks from the network

`NonDelegatePersistence::VerifyAggSignature` and the `Add*Block` entry points of `BlockCache`: a
block is kept when both aggregate signatures verify under the keys of its delegates, whatever
weight the signers have.
-/

namespace LogosCore.Approval

open Quorum Validator

inductive AddResult
  | ok | exists_ | failed
  deriving DecidableEq

/-- What decides the result of an add: the validators, the hashes taken in and those in the write
queue or the store. Only unit tests set `unitTestQ`. -/
structure BlockCache (H κ : Type) where
  builder : ValidatorBuilder κ
  cachedBlocks : List H
  blockExists : H → Bool
  unitTestQ : Bool

section Model

variable {H σ β γ π κ : Type} [Zero H] [DecidableEq H]
variable (bls : Bls H σ π κ) (hashing : Hashing H σ β γ) (store : EpochStore H π)

def verifyAggSignature (ct : ConsensusType) (builder : ValidatorBuilder κ)
    (block : PostCommittedBlock H σ β) : Option (Bool × ValidatorBuilder κ) :=
  let prePrepareHash := hashing.hash ct block.toConsensusBlock
  match getValidator bls store builder block.delegatesEpochNumber with
  | none => none
  | some (none,builder') => some (false,builder')
  | some (some validator,builder') =>
    if validator.validate bls prePrepareHash block.postPrepareSig then
      let postPrepareHash := hashing.computeHash prePrepareHash block.postPrepareSig
      some (validator.validate bls postPrepareHash block.postCommitSig,builder')
    else some (false,builder')

/-- `BlockExistsAdd`: whether the hash is known, and the hashes known afterwards. -/
def BlockCache.blockExistsAdd (cache : BlockCache H κ) (hash : H) : Bool × BlockCache H κ :=
  if hash ∈ cache.cachedBlocks ∨ cache.blockExists hash then (true,cache)
  else (false,{ cache with cachedBlocks := hash :: cache.cachedBlocks })

/-- The common body of the three `Add*Block` functions, up to its result. -/
def BlockCache.addBlock (ct : ConsensusType) (cache : BlockCache H κ)
    (block : PostCommittedBlock H σ β) : Option (AddResult × BlockCache H κ) :=
  let verified := if cache.unitTestQ then some (true,cache.builder)
    else verifyAggSignature bls hashing store ct cache.builder block
  verified.map fun v =>
    let cache := { cache with builder := v.2 }
    if v.1 then
      match cache.blockExistsAdd (hashing.hash ct block.toConsensusBlock) with
      | (true,cache') => (.exists_,cache')
      | (false,cache') => (.ok,cache')
    else (.failed,cache)

def BlockCache.addEpochBlock : BlockCache H κ → PostCommittedBlock H σ β →
    Option (AddResult × BlockCache H κ) :=
  BlockCache.addBlock bls hashing store .epoch

def BlockCache.addMicroBlock : BlockCache H κ → PostCommittedBlock H σ β →
    Option (AddResult × BlockCache H κ) :=
  BlockCache.addBlock bls hashing store .microBlock

def BlockCache.addRequestBlock : BlockCache H κ → PostCommittedBlock H σ β →
    Option (AddResult × BlockCache H κ) :=
  BlockCache.addBlock bls hashing store .request

def BlockCache.add : ConsensusType → BlockCache H κ → PostCommittedBlock H σ β →
    Option (AddResult × BlockCache H κ)
  | .epoch => BlockCache.addEpochBlock bls hashing store
  | .microBlock => BlockCache.addMicroBlock bls hashing store
  | .request => BlockCache.addRequestBlock bls hashing store

theorem BlockCache.add_eq_addBlock (ct : ConsensusType) :
    BlockCache.add bls hashing store ct = BlockCache.addBlock bls hashing store ct := by
  cases ct <;> rfl

end Model

section Quorums

variable {H σ β γ π κ : Type}

def EpochBlock.weights (epoch : EpochBlock H π) (id : DelegateId) : Weight :=
  ⟨(epoch.delegates id).vote,(epoch.delegates id).stake⟩

/-- The exact vote and stake of the mapped delegates reach the quorums of their epoch. -/
def HasQuorum (epoch : EpochBlock H π) (map : ParticipationMap) : Prop :=
  let thresholds := onCurrentEpochSet 0 (EpochBlock.weights epoch)
  thresholds.voteQuorum.toNat ≤ ∑ i ∈ map,(epoch.delegates i).vote.toNat ∧
    thresholds.stakeQuorum.toNat ≤ ∑ i ∈ map,(epoch.delegates i).stake.toNat

/-- Both participation maps of a block have quorum in the delegate set it names. -/
def CarriesQuorum (store : EpochStore H π) (block : PostCommittedBlock H σ β) : Prop :=
  ∃ epoch,epochBlockOf store (block.delegatesEpochNumber - 2) = some epoch ∧
    HasQuorum epoch block.postPrepareSig.map ∧ HasQuorum epoch block.postCommitSig.map

/-- `sig` verifies exactly when every mapped delegate signed `hash`. -/
def ExactVerification (bls : Bls H σ π κ) (signed : π → H → σ → Prop) : Prop :=
  ∀ (delegates : DelegateId → Delegate π) (hash : H) (sig : AggSignature σ),
    (MessageValidator.ofDelegates bls delegates).validate bls hash sig ↔
      ∀ d ∈ sig.map,signed (delegates d).blsPub hash sig.sig

end Quorums

section Acceptance

variable {H σ β γ π κ : Type} [Zero H] [DecidableEq H]
variable {bls : Bls H σ π κ} {hashing : Hashing H σ β γ} {store : EpochStore H π}
variable {signed : π → H → σ → Prop}

def AllSigned (hashing : Hashing H σ β γ) (signed : π → H → σ → Prop) (ct : ConsensusType)
    (epoch : EpochBlock H π) (block : PostCommittedBlock H σ β) : Prop :=
  let prePrepareHash := hashing.hash ct block.toConsensusBlock
  (∀ d ∈ block.postPrepareSig.map,
    signed (epoch.delegates d).blsPub prePrepareHash block.postPrepareSig.sig) ∧
  ∀ d ∈ block.postCommitSig.map,signed (epoch.delegates d).blsPub
    (hashing.computeHash prePrepareHash block.postPrepareSig) block.postCommitSig.sig

omit [DecidableEq H] in
theorem verifyAggSignature_true_iff {ct : ConsensusType} {builder : ValidatorBuilder κ}
    {block : PostCommittedBlock H σ β} (hexact : ExactVerification bls signed)
    (hf : builder.Faithful bls store) :
    (∃ builder',verifyAggSignature bls hashing store ct builder block = some (true,builder')) ↔
      ∃ epoch,epochBlockOf store (block.delegatesEpochNumber - 2) = some epoch ∧
        AllSigned hashing signed ct epoch block := by
  constructor
  · rintro ⟨builder',h⟩
    unfold verifyAggSignature at h
    dsimp only at h
    split at h
    · cases h
    · cases h
    · next v b hv =>
      obtain ⟨hr,-⟩ := getValidator_spec hf hv
      obtain ⟨epoch,hepoch,rfl⟩ := Option.map_eq_some_iff.mp hr.symm
      split_ifs at h with hprep
      · simp only [Option.some.injEq,Prod.mk.injEq] at h
        exact ⟨epoch,hepoch,(hexact _ _ _).mp hprep,(hexact _ _ _).mp h.1⟩
      · cases h
  · rintro ⟨epoch,hepoch,hprep,hcommit⟩
    obtain ⟨b,hb⟩ := getValidator_of_epochBlockOf hf hepoch
    refine ⟨b,?_⟩
    unfold verifyAggSignature
    simp only [hb]
    rw [if_pos ((hexact _ _ _).mpr hprep),(hexact _ _ _).mpr hcommit]

theorem BlockCache.add_ne_failed_iff {ct : ConsensusType} {cache : BlockCache H κ}
    {block : PostCommittedBlock H σ β} (hq : cache.unitTestQ = false)
    (hexact : ExactVerification bls signed) (hf : cache.builder.Faithful bls store) :
    (∃ r cache',cache.add bls hashing store ct block = some (r,cache') ∧ r ≠ .failed) ↔
      ∃ epoch,epochBlockOf store (block.delegatesEpochNumber - 2) = some epoch ∧
        AllSigned hashing signed ct epoch block := by
  rw [← verifyAggSignature_true_iff hexact hf,BlockCache.add_eq_addBlock]
  unfold BlockCache.addBlock
  simp only [hq,Bool.false_eq_true,if_false]
  cases hv : verifyAggSignature bls hashing store ct cache.builder block with
  | none => simp
  | some v =>
    obtain ⟨verified,builder'⟩ := v
    cases verified with
    | false => simp
    | true =>
      simp only [Option.map_some,if_true,BlockCache.blockExistsAdd,Option.some.injEq]
      split_ifs <;> simp

/-- The weight of the signers is not checked, so acceptance implies a quorum exactly for blocks that
some mapped delegate did not sign, or whose maps have a quorum. -/
theorem BlockCache.add_carriesQuorum_iff {ct : ConsensusType} {cache : BlockCache H κ}
    {block : PostCommittedBlock H σ β} (hq : cache.unitTestQ = false)
    (hexact : ExactVerification bls signed) (hf : cache.builder.Faithful bls store) :
    (∀ r cache',cache.add bls hashing store ct block = some (r,cache') → r ≠ .failed →
      CarriesQuorum store block) ↔
    ∀ epoch,epochBlockOf store (block.delegatesEpochNumber - 2) = some epoch →
      AllSigned hashing signed ct epoch block →
      HasQuorum epoch block.postPrepareSig.map ∧ HasQuorum epoch block.postCommitSig.map := by
  constructor
  · intro h epoch hepoch hall
    obtain ⟨r,cache',hadd,hr⟩ := (add_ne_failed_iff hq hexact hf).mpr ⟨epoch,hepoch,hall⟩
    obtain ⟨epoch',hepoch',hquorum⟩ := h r cache' hadd hr
    cases hepoch.symm.trans hepoch'
    exact hquorum
  · intro h r cache' hadd hr
    obtain ⟨epoch,hepoch,hall⟩ := (add_ne_failed_iff hq hexact hf).mp ⟨r,cache',hadd,hr⟩
    exact ⟨epoch,hepoch,h epoch hepoch hall⟩

end Acceptance

section Examples

/-- Signatures as the list of what was signed by whom; a key is its holder's number. -/
def listBls : Bls ℕ (List (ℕ × ℕ)) ℕ (List ℕ) where
  deserialize p := some [p]
  default := []
  aggregateFrom := List.flatten
  verify ks hash sig := ks.all fun k => (k,hash) ∈ sig

theorem listBls_exact : ExactVerification listBls fun p hash sig => (p,hash) ∈ sig := by
  intro delegates hash sig
  simp [MessageValidator.validate,MessageValidator.getAggregatedPublicKey,
    MessageValidator.ofDelegates,listBls,imp_iff_not_or]

def constHashing : Hashing ℕ (List (ℕ × ℕ)) Unit Unit where
  covered _ := ()
  digest _ _ _ := 7
  postPhaseDigest hash _ := hash + 1

def equalStore : EpochStore ℕ ℕ where
  epochTipGet := some ⟨0,1⟩
  epochGet hash := if hash = 1 then some ⟨0,0,fun d => ⟨d,1,1⟩⟩ else none

def emptyCache : BlockCache ℕ (List ℕ) := ⟨.empty,[],fun _ => false,false⟩

def approvedBy (map : ParticipationMap) : PostCommittedBlock ℕ (List (ℕ × ℕ)) Unit where
  primaryDelegate := 0
  epochNumber := 2
  delegatesEpochNumber := 2
  sequence := 0
  timestamp := 0
  previous := 0
  preprepareSig := []
  version := 0
  body := ()
  postPrepareSig := ⟨map,((List.finRange 32).filter (· ∈ map)).map fun d => (d.val,7)⟩
  postCommitSig := ⟨map,((List.finRange 32).filter (· ∈ map)).map fun d => (d.val,8)⟩

theorem epochBlockOf_equalStore : epochBlockOf equalStore 0 = some ⟨0,0,fun d => ⟨d,1,1⟩⟩ := rfl

theorem fullySigned_carriesQuorum :
    emptyCache.unitTestQ = false ∧ ∀ r cache',
      emptyCache.add listBls constHashing equalStore .request (approvedBy Finset.univ) =
        some (r,cache') → r ≠ .failed → CarriesQuorum equalStore (approvedBy Finset.univ) := by
  refine ⟨rfl,(BlockCache.add_carriesQuorum_iff rfl listBls_exact
    (ValidatorBuilder.empty_faithful _ _)).mpr ?_⟩
  intro epoch hepoch _
  cases epochBlockOf_equalStore.symm.trans hepoch
  unfold HasQuorum
  decide +kernel

/-- A request block signed by one delegate of 32 is taken in. -/
theorem singleSigner_accepted :
    (emptyCache.add listBls constHashing equalStore .request (approvedBy {0})).map Prod.fst =
      some .ok ∧ ¬CarriesQuorum equalStore (approvedBy {0}) := by
  refine ⟨by decide +kernel,?_⟩
  rintro ⟨epoch,hepoch,hquorum⟩
  cases epochBlockOf_equalStore.symm.trans hepoch
  revert hquorum
  unfold HasQuorum
  decide +kernel

end Examples

end LogosCore.Approval
