import LogosCore.Staking

/-! # Rewards

The reward pools of the representatives of an epoch, and the walk over an account's
governance requests by which a claim collects its share. -/
namespace LogosCore.Ledger

variable {H : Type} [DecidableEq H] [Zero H]

namespace EpochRewardsManager

open Program

def getGlobalRewardsInfo (g : GovernanceStore H) (epoch : Epoch) : GlobalRewardsInfo :=
  (g.globalRewards.lookup epoch).getD ⟨0,.zero,0⟩

def init (rep : H) (levyPercentage : BitVec 8) (epoch : Epoch) (totalStake selfStake : Amount) :
    Gov H Unit :=
  modify fun g =>
    let info : RewardsInfo := ⟨false,levyPercentage,totalStake,selfStake,.zero,.zero⟩
    let global := getGlobalRewardsInfo g epoch
    { g with
      rewards := g.rewards.insert (rep,epoch) info
      globalRewards := g.globalRewards.insert epoch
        { global with totalStake := global.totalStake + totalStake } }

/-- More than what remains is not harvested, and then nothing is stored. -/
def harvestReward (rep : H) (epoch : Epoch) (amount : Rational) (info : RewardsInfo) : Gov H Unit :=
  if info.remainingReward.lt amount then pure ()
  else
    let info := { info with remainingReward := info.remainingReward.sub amount }
    if Rational.zero.lt info.remainingReward then
      modify fun g => { g with rewards := g.rewards.insert (rep,epoch) info }
    else modify fun g => { g with rewards := g.rewards.erase (rep,epoch) }

def harvestGlobalReward (epoch : Epoch) (amount : Rational) (info : GlobalRewardsInfo) :
    Gov H Unit :=
  if info.remainingReward.lt amount then halt .other
  else
    let info := { info with remainingReward := info.remainingReward.sub amount }
    if Rational.zero.lt info.remainingReward then
      modify fun g => { g with globalRewards := g.globalRewards.insert epoch info }
    else modify fun g => { g with globalRewards := g.globalRewards.erase epoch }

end EpochRewardsManager

open EpochRewardsManager Program

/-- What the governance requests seen so far make of the claiming account. -/
structure ClaimStatus (H : Type) where
  isRep : Bool
  rep : H
  staked : Amount
deriving DecidableEq,Repr

namespace ClaimStatus

/-- The effect of a governance request: `some none` passes over it, `none` halts. -/
def update (st : ClaimStatus H) : Body H → Option (Option (ClaimStatus H))
  | .proxy _ lockProxy rep =>
    some (some (if lockProxy = 0 then ⟨false,0,0⟩ else ⟨false,rep,lockProxy⟩))
  | .announceCandidacy _ _ _ => some (some { st with rep := 0,isRep := true })
  | .startRepresenting _ _ _ => some (some { st with rep := 0,isRep := true })
  | .stopRepresenting _ _ => some (some { st with isRep := false })
  | .stake _ _ => some none
  | .unstake _ => some none
  | .electionVote _ _ => some none
  | .renounceCandidacy _ _ => some none
  | _ => none

/-- The stake of a share, cut to 128 bits, after the levy. -/
def shareStake (st : ClaimStatus H) (info : RewardsInfo) : Amount :=
  let levy : BitVec 256 := info.levyPercentage.setWidth 256
  if st.isRep then
    let proxied : BitVec 256 := (info.totalStake - info.selfStake).setWidth 256
    (info.selfStake.setWidth 256 + (100 - levy) * proxied / 100).setWidth 128
  else (st.staked.setWidth 256 * levy / 100).setWidth 128

end ClaimStatus

/-- A representative's pool is its share of the global reward, determined on first use. -/
def determineRewards (epoch : Epoch) (info : RewardsInfo) : Gov H RewardsInfo := do
  if info.initialized then pure info
  else do
    let g ← get
    match g.globalRewards.lookup epoch with
    | none => halt .other
    | some global =>
      let quota ← need (Rational.make info.totalStake.toNat global.totalStake.toNat) .other
      let pool := quota.mul (.ofNat global.totalReward.toNat)
      harvestGlobalReward epoch pool global
      pure { info with totalReward := pool,remainingReward := pool,initialized := true }

/-- The reward of one epoch, added to the sum. -/
def harvestEpoch (origin : H) (st : ClaimStatus H) (sum : Rational) (epoch : Epoch) :
    Gov H Rational := do
  let rep := if st.isRep then origin else st.rep
  let g ← get
  match g.rewards.lookup (rep,epoch) with
  | none => pure sum
  | some info =>
    let info ← determineRewards epoch info
    let share ← need (Rational.make (st.shareStake info).toNat info.totalStake.toNat) .other
    let reward := share.mul info.totalReward
    harvestReward rep epoch reward info
    pure (sum.add reward)

/-- The unclaimed epochs after `base` up to `peak`, which must not be the greatest number. -/
def claimedEpochs (claimEpoch base peak : Epoch) : Option (List Epoch) :=
  if peak = BitVec.allOnes 32 then none
  else
    let epochs := (List.range' (base.toNat + 1) (peak.toNat - base.toNat)).map (BitVec.ofNat 32)
    some (epochs.filter (claimEpoch < ·))

/-- The rewards of the epochs in which a status was in force. -/
def harvestRange (origin : H) (claimEpoch : Epoch) (st : ClaimStatus H) (base peak : Epoch)
    (sum : Rational) : Gov H Rational := do
  if st.rep ≠ 0 ∧ st.isRep then halt .other
  else if st.rep ≠ 0 ∨ st.isRep then do
    let epochs ← need (claimedEpochs claimEpoch base peak) .other
    epochs.foldlM (harvestEpoch origin st) sum
  else pure sum

/-- The walk down the governance subchain; on a circle it runs out of fuel. -/
def claimLoop (origin : H) (claimEpoch : Epoch) :
    ℕ → H → ClaimStatus H → Epoch → Rational → Gov H Rational
  | 0,_,_,_,_ => halt .other
  | fuel+1,hash,st,peak,sum => do
    if hash = 0 ∨ peak ≤ claimEpoch then pure sum
    else do
      let g ← get
      let request ← need (g.requests.lookup hash) .other
      let gov ← need request.body.governance .other
      let base := gov.epochNum
      let prev := gov.governanceSubchainPrev
      if base < peak then do
        match ← need (st.update request.body) .other with
        | none => claimLoop origin claimEpoch fuel prev st peak sum
        | some st => do
          let sum ← harvestRange origin claimEpoch st base peak sum
          claimLoop origin claimEpoch fuel prev st base sum
      else claimLoop origin claimEpoch fuel prev st peak sum

/-- The whole part of the claimed rewards and the rest, with the epoch recorded as claimed. -/
def processClaim (origin : H) (epochNumber : Epoch) (info : AccountInfo H) :
    Gov H (Amount × Rational × AccountInfo H) := do
  let g ← get
  let sum ← claimLoop origin info.claimEpoch (g.requests.entries.length + 1)
    info.governanceSubchainHead ⟨false,0,0⟩ epochNumber .zero
  let remainder ← need sum.remainder .other
  pure (BitVec.ofInt 128 sum.truncate,remainder,{ info with claimEpoch := epochNumber })

/-- A claim deposits the whole part of its rewards, and a unit that the dust makes up. -/
def collectReward (origin : H) (epochNumber : Epoch) (info : AccountInfo H) :
    Gov H (Amount × AccountInfo H) := do
  let (deposit,remainder,info) ← processClaim origin epochNumber info
  let dust := info.dust.add remainder
  if dust.den ≤ dust.num then pure (deposit + 1,{ info with dust := dust.decrement })
  else pure (deposit,{ info with dust := dust })

/-! ## What collecting leaves alone -/

theorem restaked_collectReward (origin : H) (epochNumber : Epoch) (info : AccountInfo H) :
    (collectReward origin epochNumber info).Ensures fun r => info.Restaked r.2 := by
  have hclaim : (processClaim origin epochNumber info).Ensures fun r => info.Restaked r.2.2 := by
    exact ensures_after fun g => ensures_after fun sum => ensures_after fun remainder =>
      ensures_pure ⟨rfl,rfl,id⟩
  refine hclaim.bind fun r h => ensures_ite (fun _ => ?_) fun _ => ?_
  · exact ensures_pure (h.trans ⟨rfl,rfl,id⟩)
  · exact ensures_pure (h.trans ⟨rfl,rfl,id⟩)

section Leaves

variable {δ : Type} {f : GovernanceStore H → δ}

/-- Only the two tables of rewards are written. -/
theorem leaves_determineRewards (hf : ∀ g rewards,f { g with globalRewards := rewards } = f g)
    (epoch : Epoch) (info : RewardsInfo) : (determineRewards epoch info).Leaves f := by
  refine leaves_ite leaves_pure (leaves_get fun g => ?_)
  cases g.globalRewards.lookup epoch with
  | none => trivial
  | some global =>
    refine Leaves.reads (leaves_need.bind fun _ => Leaves.bind ?_ fun _ => leaves_pure) g
    exact leaves_ite leaves_halt (leaves_ite (leaves_modify fun g => hf g _)
      (leaves_modify fun g => hf g _))

variable (hf : ∀ g rewards globalRewards,
  f { g with rewards := rewards,globalRewards := globalRewards } = f g)

include hf

theorem leaves_harvestEpoch (origin : H) (st : ClaimStatus H) (sum : Rational) (epoch : Epoch) :
    (harvestEpoch origin st sum epoch).Leaves f := by
  refine leaves_get fun g => ?_
  cases g.rewards.lookup (if st.isRep then origin else st.rep,epoch) with
  | none => exact rfl
  | some info =>
    refine Leaves.reads ?_ g
    refine (leaves_determineRewards (fun g => hf g g.rewards) epoch info).bind fun _ =>
      leaves_need.bind fun _ => Leaves.bind ?_ fun _ => leaves_pure
    exact leaves_ite leaves_pure (leaves_ite (leaves_modify fun g => hf g _ g.globalRewards)
      (leaves_modify fun g => hf g _ g.globalRewards))

theorem leaves_harvestRange (origin : H) (claimEpoch : Epoch) (st : ClaimStatus H)
    (base peak : Epoch) (sum : Rational) :
    (harvestRange origin claimEpoch st base peak sum).Leaves f :=
  leaves_ite leaves_halt (leaves_ite (leaves_need.bind fun _ => leaves_foldlM fun _ _ =>
    leaves_harvestEpoch hf ..) leaves_pure)

theorem leaves_claimLoop (origin : H) (claimEpoch : Epoch) (fuel : ℕ) (hash : H)
    (st : ClaimStatus H) (peak : Epoch) (sum : Rational) :
    (claimLoop origin claimEpoch fuel hash st peak sum).Leaves f := by
  induction fuel generalizing hash st peak sum with
  | zero => exact leaves_halt
  | succ fuel ih =>
    refine leaves_ite leaves_pure (leaves_get fun g => Leaves.reads ?_ g)
    refine leaves_need.bind fun request => leaves_need.bind fun gov => leaves_ite ?_ (ih ..)
    refine leaves_need.bind fun updated => ?_
    cases updated with
    | none => exact ih ..
    | some st => exact (leaves_harvestRange hf ..).bind fun _ => ih ..

theorem leaves_collectReward (origin : H) (epochNumber : Epoch) (info : AccountInfo H) :
    (collectReward origin epochNumber info).Leaves f := by
  refine Leaves.bind ?_ fun _ => leaves_ite leaves_pure leaves_pure
  exact leaves_get fun g => Leaves.reads ((leaves_claimLoop hf ..).bind fun _ =>
    leaves_need.bind fun _ => leaves_pure) g

end Leaves

end LogosCore.Ledger
