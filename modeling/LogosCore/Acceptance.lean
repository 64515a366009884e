import LogosCore.Approval
import LogosCore.ValidatorCache

/-!
# Acceptance over a run

Blocks arrive in any order while the epoch chain grows and hashes move from the cache to the write
queue and the store. The answers are those of the chain and of a set that forgets nothing.
-/

namespace LogosCore.Approval

open Quorum Validator Machine

variable {H σ β γ π κ : Type}

structure Intake (H π κ : Type) where
  store : EpochStore H π
  cache : BlockCache H κ

inductive Arrival (H σ β π : Type)
  | add (ct : ConsensusType) (block : PostCommittedBlock H σ β)
  | grow (store : EpochStore H π)
  | stored (blockExists : H → Bool)
  | delete (hash : H)

/-- Both aggregates are signed by all mapped delegates of the epoch block that the block names. -/
def Approved [Zero H] (hashing : Hashing H σ β γ) (signed : π → H → σ → Prop)
    (store : EpochStore H π) (ct : ConsensusType) (block : PostCommittedBlock H σ β) : Prop :=
  ∃ epoch,epochBlockOf store (block.delegatesEpochNumber - 2) = some epoch ∧
    AllSigned hashing signed ct epoch block

open Classical in
/-- What should be answered, given all hashes known before. -/
noncomputable def answers [Zero H] (hashing : Hashing H σ β γ) (signed : π → H → σ → Prop) :
    EpochStore H π → Set H → List (Arrival H σ β π) → List AddResult
  | _,_,[] => []
  | store,known,.add ct block :: es =>
    let hash := hashing.hash ct block.toConsensusBlock
    if Approved hashing signed store ct block then
      if hash ∈ known then .exists_ :: answers hashing signed store known es
      else .ok :: answers hashing signed store (insert hash known) es
    else .failed :: answers hashing signed store known es
  | _,known,.grow store :: es => answers hashing signed store known es
  | store,known,.stored blockExists :: es =>
    answers hashing signed store (known ∪ {h | blockExists h}) es
  | store,known,.delete _ :: es => answers hashing signed store known es

variable [Zero H] [DecidableEq H] {bls : Bls H σ π κ} {hashing : Hashing H σ β γ}
  {store : EpochStore H π} {signed : π → H → σ → Prop} {cache : BlockCache H κ}

def receive (bls : Bls H σ π κ) (hashing : Hashing H σ β γ) (s : Intake H π κ) :
    Arrival H σ β π → Option (Intake H π κ × List AddResult)
  | .add ct block => (s.cache.add bls hashing s.store ct block).map fun r => (⟨s.store,r.2⟩,[r.1])
  | .grow store => some (⟨store,s.cache⟩,[])
  | .stored blockExists => some (⟨s.store,{ s.cache with blockExists }⟩,[])
  | .delete hash =>
    some (⟨s.store,{ s.cache with cachedBlocks := s.cache.cachedBlocks.filter (· ≠ hash) }⟩,[])

/-- Chain, queue and store only grow, and `BlockDelete` comes after the block is queued. -/
def Intake.Orderly (s : Intake H π κ) : Arrival H σ β π → Prop
  | .add _ _ => True
  | .grow store => s.store.Grows store
  | .stored blockExists => ∀ h,s.cache.blockExists h → blockExists h
  | .delete hash => s.cache.blockExists hash

omit [Zero H] [DecidableEq H] in
def BlockCache.known (cache : BlockCache H κ) : Set H :=
  {h | h ∈ cache.cachedBlocks ∨ cache.blockExists h}

omit [DecidableEq H] in
/-- On a sound chain the verification returns, and keeps the cached keys faithful. -/
theorem verifyAggSignature_isSome (hs : store.Sound) (hf : cache.builder.Faithful bls store)
    (ct : ConsensusType) (block : PostCommittedBlock H σ β) : ∃ verified builder,
      verifyAggSignature bls hashing store ct cache.builder block = some (verified,builder) ∧
      builder.Faithful bls store := by
  obtain ⟨⟨r,b⟩,hget⟩ : ∃ r,getValidator bls store cache.builder block.delegatesEpochNumber =
      some r := by
    obtain ⟨r,hr⟩ : ∃ r,buildValidator bls store (block.delegatesEpochNumber - 2) = some r :=
      buildValidator_isSome hs _
    unfold getValidator
    dsimp only
    rw [hr]
    split_ifs
    · exact ⟨_,rfl⟩
    · cases r <;> split <;> exact ⟨_,rfl⟩
  obtain ⟨-,hf'⟩ := getValidator_spec hf hget
  unfold verifyAggSignature
  rw [hget]
  cases r with
  | none => exact ⟨_,b,rfl,hf'⟩
  | some v =>
    dsimp only
    split_ifs <;> exact ⟨_,b,rfl,hf'⟩

/-- One block: the code answers and goes on as the plain rule does. -/
theorem receive_add (hexact : ExactVerification bls signed) (hs : store.Sound)
    (hf : cache.builder.Faithful bls store) (hq : cache.unitTestQ = false) (ct : ConsensusType)
    (block : PostCommittedBlock H σ β) (es : List (Arrival H σ β π)) :
    ∃ r c,receive bls hashing ⟨store,cache⟩ (.add ct block) = some (⟨store,c⟩,[r]) ∧
      c.builder.Faithful bls store ∧ c.unitTestQ = false ∧
      answers hashing signed store cache.known (.add ct block :: es) =
        r :: answers hashing signed store c.known es := by
  obtain ⟨verified,b,hverify,hf'⟩ : ∃ verified b,verifyAggSignature bls hashing store ct
    cache.builder block = some (verified,b) ∧ b.Faithful bls store :=
      verifyAggSignature_isSome hs hf ct block
  have happroved : Approved hashing signed store ct block ↔ verified = true := by
    rw [Approved,← verifyAggSignature_true_iff hexact hf,hverify]
    simp
  simp only [receive,BlockCache.add_eq_addBlock,BlockCache.addBlock,hq,hverify,answers,happroved,
    BlockCache.blockExistsAdd,BlockCache.known,Set.mem_setOf_eq]
  cases verified with
  | false => exact ⟨_,_,rfl,hf',rfl,by simp⟩
  | true =>
    by_cases hknown : hashing.hash ct block.toConsensusBlock ∈ cache.cachedBlocks ∨
        cache.blockExists (hashing.hash ct block.toConsensusBlock) = true
    · simp [hknown,hf']
    · simp [hknown,hf',Set.insert_def,or_assoc]

end LogosCore.Approval
