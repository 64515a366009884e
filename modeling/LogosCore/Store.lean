import LogosCore.Requests
import LogosCore.Tables
import LogosCore.Programs

/-! # The stores of the ledger

Records and tables of the block store. Everything that elections, voting power, staking and
rewards keep is one part of the state, so that a function of that part cannot reach the
accounts, the receives or the fee pools. -/
namespace LogosCore.Ledger

structure RepInfo (H : Type) where
  candidacyActionTip : H
  electionVoteTip : H
  repActionTip : H
  levyPercentage : BitVec 8
deriving DecidableEq,Repr

structure CandidateInfo where
  votesReceivedWeighted : Amount
  curStake : Amount
  nextStake : Amount
  epochModified : Epoch
  levyPercentage : BitVec 8
deriving DecidableEq,Repr

structure VotingPowerSnapshot where
  lockedProxied : Amount
  unlockedProxied : Amount
  selfStake : Amount
deriving DecidableEq,Repr

structure VotingPowerInfo where
  current : VotingPowerSnapshot
  next : VotingPowerSnapshot
  epochModified : Epoch
deriving DecidableEq,Repr

structure VotingPowerFallback where
  power : Amount
  totalStake : Amount
deriving DecidableEq,Repr

structure StakedFunds (H : Type) where
  target : H
  amount : Amount
  liabilityHash : H
deriving DecidableEq,Repr

structure ThawingFunds (H : Type) where
  expirationEpoch : Epoch
  target : H
  amount : Amount
  liabilityHash : H
deriving DecidableEq,Repr

structure Liability (H : Type) where
  target : H
  source : H
  amount : Amount
  expirationEpoch : Epoch
  isSecondary : Bool
deriving DecidableEq,Repr

structure RewardsInfo where
  initialized : Bool
  levyPercentage : BitVec 8
  totalStake : Amount
  selfStake : Amount
  remainingReward : Rational
  totalReward : Rational
deriving DecidableEq,Repr

structure GlobalRewardsInfo where
  totalStake : Amount
  remainingReward : Rational
  totalReward : Amount
deriving DecidableEq,Repr

/-- A delegate of an epoch block; `keys` stands for its two public keys. -/
structure Delegate (H : Type) where
  account : H
  keys : H
  rawVote : Amount
  rawStake : Amount
  vote : Amount
  stake : Amount
  startingTerm : Bool
deriving DecidableEq,Repr

structure EpochBlock (H : Type) where
  epochNumber : Epoch
  previous : H
  timestamp : BitVec 64
  delegates : List (Delegate H)
  isExtension : Bool
  transactionFeePool : Amount
  totalSupply : Amount
deriving DecidableEq,Repr

structure ReceiveBlock (H : Type) where
  previous : H
  sourceHash : H
  index : BitVec 16
deriving DecidableEq,Repr

/-- The tables of elections, power, staking and rewards, with the requests and epoch blocks they
read. Size and least of the leading candidates are kept in memory. -/
structure GovernanceStore (H : Type) where
  requests : Table H (Request H)
  epochs : Table H (EpochBlock H)
  epochTip : Option (H × Epoch)
  reps : Table H (RepInfo H)
  removeReps : List H
  candidates : Table H CandidateInfo
  leadingCandidates : Table H CandidateInfo
  leadingCandidatesSize : ℕ
  minLeadingCandidate : H × CandidateInfo
  removeCandidates : List H
  votingPower : Table H VotingPowerInfo
  votingPowerFallback : Table H VotingPowerFallback
  stakes : Table H (StakedFunds H)
  thawing : Table H (List (ThawingFunds H))
  masterLiabilities : Table H (Liability H)
  repLiabilities : Table H (List H)
  secondaryLiabilities : Table H (List H)
  rewards : Table (H × Epoch) RewardsInfo
  globalRewards : Table Epoch GlobalRewardsInfo

/-- The whole ledger; `requestBlocks` holds the timestamps of the approved request blocks. -/
structure Store (H : Type) where
  accounts : Table H (Account H)
  tokenUserStatus : Table H TokenUserStatus
  receives : Table H (ReceiveBlock H)
  requestBlocks : Table H (BitVec 64)
  feePools : Table Epoch Amount
  gov : GovernanceStore H

variable {H : Type}

def GovernanceStore.empty [Zero H] : GovernanceStore H where
  requests := ∅
  epochs := ∅
  epochTip := none
  reps := ∅
  removeReps := []
  candidates := ∅
  leadingCandidates := ∅
  leadingCandidatesSize := 0
  minLeadingCandidate := (0,⟨0,0,0,0,100⟩)
  removeCandidates := []
  votingPower := ∅
  votingPowerFallback := ∅
  stakes := ∅
  thawing := ∅
  masterLiabilities := ∅
  repLiabilities := ∅
  secondaryLiabilities := ∅
  rewards := ∅
  globalRewards := ∅

def Store.empty [Zero H] : Store H := ⟨∅,∅,∅,∅,∅,.empty⟩

/-- Why a governance procedure halts. -/
inductive Halt
  | votingPower | balance | liability | other
deriving DecidableEq,Repr

/-- A governance procedure: it works on the governance tables and may halt. -/
abbrev Gov (H : Type) := Program Halt (GovernanceStore H)

def Store.runGov {α : Type} (s : Store H) (x : Gov H α) : Option (α × Store H) :=
  (x.run s.gov).toOption.map fun r => (r.1,{ s with gov := r.2 })

theorem Store.runGov_eq_some {α : Type} {s s' : Store H} {x : Gov H α} {a : α} :
    s.runGov x = some (a,s') ↔ ∃ g,x.run s.gov = .ok (a,g) ∧ s' = { s with gov := g } := by
  unfold runGov
  cases x.run s.gov with
  | error e => simp [Except.toOption]
  | ok r =>
    simp only [Except.toOption,Option.map_some,Option.some.injEq,Prod.mk.injEq,Except.ok.injEq]
    constructor
    · rintro ⟨rfl,rfl⟩
      exact ⟨r.2,rfl,rfl⟩
    · rintro ⟨g,rfl,rfl⟩
      exact ⟨rfl,rfl⟩

section Epochs
variable [DecidableEq H] [Zero H]

namespace GovernanceStore

omit [Zero H] in
def requestExists (g : GovernanceStore H) (hash : H) : Bool := hash ∈ g.requests

def epochGet (g : GovernanceStore H) (hash : H) : Option (EpochBlock H) :=
  if hash = 0 then none else g.epochs.lookup hash

/-- Walk back `n` blocks along the `previous` hashes; each of them has to be there. -/
def epochBack (g : GovernanceStore H) (hash : H) : ℕ → Option (EpochBlock H)
  | 0 => g.epochGet hash
  | n+1 => (g.epochGet hash).bind fun eb => g.epochBack eb.previous n

/-- The epoch block `n` epochs before the tip. -/
def epochGetN (g : GovernanceStore H) (n : ℕ) : Option (EpochBlock H) :=
  g.epochTip.bind fun tip => g.epochBack tip.1 n

/-- Walk back to the block before which `n` others pass the filter. A chain longer than the number
of blocks is a circle, on which the code does not end. -/
def epochSearch (g : GovernanceStore H) (filter : EpochBlock H → Bool) :
    ℕ → H → ℕ → Option (EpochBlock H)
  | 0,_,_ => none
  | fuel+1,hash,n => (g.epochGet hash).bind fun eb =>
    if filter eb then match n with
      | 0 => some eb
      | n+1 => g.epochSearch filter fuel eb.previous n
    else g.epochSearch filter fuel eb.previous n

/-- The epoch block `n` epochs before the tip where extensions do not count. -/
def epochGetNonExtension (g : GovernanceStore H) (n : ℕ) : Option (EpochBlock H) :=
  g.epochTip.bind fun tip =>
    g.epochSearch (!·.isExtension) (g.epochs.entries.length + 1) tip.1 n

end GovernanceStore

end Epochs
end LogosCore.Ledger
