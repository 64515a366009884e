import LogosCore.EarlyUpdates
import LogosCore.ElectionFrames
import LogosCore.EpochBlocks

/-! # What the transition to the next epoch leaves alone

Moving thawing funds, candidates and representatives to the next epoch does not touch the epoch
blocks. -/
namespace LogosCore.Ledger

variable {H : Type} [DecidableEq H] [Zero H] {cfg : Config H}

open Program VotingPowerManager LiabilityManager

def GovernanceStore.blocks (g : GovernanceStore H) := (g.epochs,g.epochTip)

instance : StakeApart (H := H) GovernanceStore.blocks where
  power h := by rw [h]; rfl
  liabilities h := by rw [h]; rfl
  thawing _ _ := rfl
  rewards _ _ _ := rfl
  stakes _ _ := rfl

variable {δ : Type} {f : GovernanceStore H → δ}

namespace StakingManager

theorem leaves_redateLoop [Apart f] (origin : H) (expiration : Epoch)
    (marked stops : ThawingFunds H → Bool) (ts : List (ThawingFunds H)) :
    (redateLoop cfg origin expiration marked stops ts).Leaves f := by
  induction ts with
  | nil => exact leaves_pure
  | cons t ts ih =>
    refine leaves_ite ?_ (leaves_ite leaves_pure ih)
    refine (leaves_deleteLiability _).bind fun _ => (leaves_store _).bind fun hash => ?_
    exact (leaves_modify fun g => Apart.thawing g _).bind fun _ => ih.bind fun _ => leaves_pure

theorem leaves_redate [Apart f] (origin : H) (expiration : Epoch)
    (marked stops : ThawingFunds H → Bool) :
    (redate cfg origin expiration marked stops).Leaves f := by
  refine leaves_get fun g => ?_
  exact ((leaves_redateLoop ..).bind fun _ => leaves_forM fun _ => leaves_storeThawing _ _).reads g

end StakingManager

theorem leaves_epochThawing [Apart f] (block : EpochBlock H) :
    (EpochPersistence.updateThawing cfg block).Leaves f := by
  refine leaves_get fun g => ?_
  refine (leaves_need.bind fun previous => ?_).reads g
  refine (leaves_forM fun d => StakingManager.leaves_redate ..).bind fun _ => ?_
  exact leaves_forM fun d => StakingManager.leaves_redate ..

theorem leaves_getVotingPowerInfo [Apart f] (rep : H) (epoch : Epoch) :
    (getVotingPowerInfo rep epoch).Leaves f := by
  refine leaves_get fun g => ?_
  cases g.votingPower.lookup rep with
  | none => trivial
  | some info =>
    refine (onlyPower_transitionIfNecessary trivial info epoch rep g).bind
      fun r g1 h1 => ?_
    obtain ⟨info1,moved⟩ := r
    refine wp_ite (fun _ => ?_) fun _ => Apart.power h1
    exact (onlyPower_storeOrPrune trivial rep info1 g1).bind fun _ _ h2 =>
      Apart.power (h1.trans h2)

theorem leaves_candidatePut
    (hf : ∀ {g g' : GovernanceStore H},g.OnlyCandidates g' → f g' = f g) (account : H)
    (info : CandidateInfo) : (candidatePut cfg account info).Leaves f := by
  refine leaves_get fun g => wp_bind.mpr (wp_need (fun _ => trivial) fun g' hg' => ?_)
  have honly := onlyCandidates_updateLeadingCandidates hg'
  exact hf (by rw [honly]; rfl)

theorem blocks_of_onlyCandidates {g g' : GovernanceStore H} (h : g.OnlyCandidates g') :
    g'.blocks = g.blocks := by
  rw [h]
  rfl

theorem leaves_addReelectionCandidates (nextEpoch : Epoch) :
    (addReelectionCandidates cfg nextEpoch).Leaves GovernanceStore.blocks := by
  refine leaves_get fun g => ?_
  refine (leaves_need.bind fun eb => leaves_forM fun d => leaves_get fun g => ?_).reads g
  cases g.reps.lookup d.account with
  | none => exact leaves_pure.reads g
  | some rep =>
    refine (leaves_need.bind fun request => ?_).reads g
    cases request.body with
    | announceCandidacy gov setStake levy =>
      exact (leaves_getVotingPowerInfo ..).bind fun _ =>
        leaves_candidatePut blocks_of_onlyCandidates ..
    | _ => exact leaves_pure

theorem leaves_markDelegateElectsAsRemove :
    (markDelegateElectsAsRemove cfg : Gov H Unit).Leaves GovernanceStore.blocks := by
  refine leaves_get fun g => ?_
  exact (leaves_need.bind fun eb => leaves_forM fun d => leaves_modify (by intro; rfl)).reads g

theorem leaves_updateCandidatesDB :
    (updateCandidatesDB : Gov H Unit).Leaves GovernanceStore.blocks := by
  refine leaves_get fun g => ?_
  refine (Leaves.bind (leaves_forM fun account => leaves_get fun g => ?_) fun _ =>
    leaves_modify (by intro; rfl)).reads g
  exact wp_ite (fun _ => rfl) fun _ => trivial

theorem leaves_updateRepresentativesDB :
    (updateRepresentativesDB : Gov H Unit).Leaves GovernanceStore.blocks := by
  refine leaves_get fun g => ?_
  refine (Leaves.bind (leaves_forM fun rep => leaves_get fun g => ?_) fun _ =>
    leaves_modify (by intro; rfl)).reads g
  refine wp_ite (fun _ => wp_bind.mpr (wp_set.mpr ?_)) fun _ => trivial
  have hprune : (tryPrune rep).Leaves GovernanceStore.blocks := by
    refine leaves_modify fun g => ?_
    cases g.votingPower.lookup rep with
    | none => rfl
    | some info =>
      dsimp only
      split <;> rfl
  exact hprune.reads _

theorem leaves_transitionNextEpoch (nextEpoch : Epoch) :
    (transitionNextEpoch cfg nextEpoch).Leaves GovernanceStore.blocks := by
  have hrest : (updateCandidatesDB : Gov H Unit).Leaves GovernanceStore.blocks :=
    leaves_updateCandidatesDB
  have hmark : (do
      if startElectionsEpoch < nextEpoch then markDelegateElectsAsRemove cfg
      updateCandidatesDB : Gov H Unit).Leaves GovernanceStore.blocks :=
    leaves_ite (leaves_markDelegateElectsAsRemove.bind fun _ => hrest) hrest
  refine Leaves.bind ?_ fun _ => leaves_updateRepresentativesDB
  exact leaves_ite ((leaves_addReelectionCandidates nextEpoch).bind fun _ => hmark) hmark

theorem blocks_moveToNextEpoch {g g' : GovernanceStore H} {hash : H} {block : EpochBlock H}
    (h : (Store.moveToNextEpoch cfg hash block).run g = .ok ((),g')) :
    g'.epochs = g.epochs.insert hash block ∧ g'.epochTip = some (hash,block.epochNumber) := by
  have hmove : (Store.moveToNextEpoch cfg hash block).wp (fun _ => True) (fun _ g' =>
      g'.blocks = (g.epochs.insert hash block,some (hash,block.epochNumber))) g := by
    refine ((leaves_epochThawing (f := GovernanceStore.blocks) block).reads g).bind
      fun _ g1 h1 => wp_bind.mpr (wp_modify.mpr ?_)
    simp only [GovernanceStore.blocks,Prod.mk.injEq] at h1
    refine wp_ite (fun _ => ?_) fun _ => ?_
    · refine ((leaves_transitionNextEpoch _).reads _).imp fun _ g2 h2 => h2.trans ?_
      simp only [GovernanceStore.blocks,h1.1]
    · simp only [wp_pure,GovernanceStore.blocks,h1.1]
  have hblocks := hmove.run h
  simp only [GovernanceStore.blocks,Prod.mk.injEq] at hblocks
  exact hblocks

end LogosCore.Ledger
