import LogosCore.Rewards
import LogosCore.StakingFrames

/-! # Governance requests

Representatives, candidates and votes: the checks a governance request has to pass and what
applying it does to the governance tables and to the account. -/
namespace LogosCore.Ledger

variable {H : Type} [DecidableEq H] [Zero H] (cfg : Config H)

def startElectionsEpoch : Epoch := 50

def maxLeadingCandidates : ℕ := 8

def minRepStake : Amount := BitVec.allOnes 128 / 10000

def minDelegateStake : Amount := BitVec.allOnes 128 / 1000

section Candidates

open Program

def CandidateInfo.default : CandidateInfo := ⟨0,0,0,0,100⟩

/-- The votes of a past epoch are dropped and the next stake becomes the current one. -/
def CandidateInfo.transitionIfNecessary (c : CandidateInfo) (epoch : Epoch) : CandidateInfo :=
  if c.epochModified < epoch then
    { c with curStake := c.nextStake,epochModified := epoch,votesReceivedWeighted := 0 }
  else c

def candidateIsGreater (a b : H × CandidateInfo) : Bool :=
  if a.2.votesReceivedWeighted ≠ b.2.votesReceivedWeighted then
    b.2.votesReceivedWeighted < a.2.votesReceivedWeighted
  else if a.2.curStake ≠ b.2.curStake then b.2.curStake < a.2.curStake
  else
    cfg.delegateHash b.1 b.2.votesReceivedWeighted b.2.curStake <
      cfg.delegateHash a.1 a.2.votesReceivedWeighted a.2.curStake

/-- Recount the leading candidates and find the least of them. -/
def syncLeadingCandidates (g : GovernanceStore H) : GovernanceStore H :=
  let leading := g.leadingCandidates.entries.map fun e => (e.1,e.2)
  { g with
    leadingCandidatesSize := leading.length
    minLeadingCandidate := match leading with
      | [] => (0,.default)
      | c::cs => cs.foldl (fun least c => if candidateIsGreater cfg c least then least else c) c }

def updateLeadingCandidates (account : H) (info : CandidateInfo) (g : GovernanceStore H) :
    Option (GovernanceStore H) :=
  let full := g.leadingCandidatesSize = maxLeadingCandidates
  let added := { g with leadingCandidates := g.leadingCandidates.insert account info }
  if account ∈ g.leadingCandidates then
    if g.minLeadingCandidate.1 = account ∧ full then some (syncLeadingCandidates cfg added)
    else some added
  else if full then
    if candidateIsGreater cfg (account,info) g.minLeadingCandidate then
      if g.minLeadingCandidate.1 ∈ g.leadingCandidates then
        some (syncLeadingCandidates cfg { g with
          leadingCandidates :=
            (g.leadingCandidates.erase g.minLeadingCandidate.1).insert account info })
      else none
    else some g
  else
    let grown := { added with leadingCandidatesSize := g.leadingCandidatesSize + 1 }
    some (if grown.leadingCandidatesSize = maxLeadingCandidates then syncLeadingCandidates cfg grown
      else grown)

def candidatePut (account : H) (info : CandidateInfo) : Gov H Unit := do
  let g ← get
  let g ← need (updateLeadingCandidates cfg account info
    { g with candidates := g.candidates.insert account info }) .other
  set g

def candidateAddVote (account : H) (weightedVote : Amount) (epoch : Epoch) : Gov H Unit := do
  let g ← get
  match g.candidates.lookup account with
  | none => halt .other
  | some info =>
    let info := info.transitionIfNecessary epoch
    candidatePut cfg account
      { info with votesReceivedWeighted := info.votesReceivedWeighted + weightedVote }

end Candidates

/-- Add an account to the sorted set of those marked for removal. -/
def markRemove (account : H) (marked : List H) : List H :=
  if account ∈ marked then marked
  else marked.orderedInsert (cfg.rank · ≤ cfg.rank ·) account

def requestPut (r : Request H) : Gov H Unit :=
  modify fun g => { g with requests := g.requests.insert (cfg.requestHash r) r }

section Apply

open VotingPowerManager StakingManager EpochRewardsManager Program

/-- The end of every governance request that may set the self stake. -/
def applySetStake (r : Request H) (gov : Governance H) (setStake : SetStake)
    (info : AccountInfo H) : Gov H (AccountInfo H) :=
  match setStake with
  | some amount => stake cfg r.origin info amount r.origin gov.epochNum
  | none => pure info

/-- The account with the request at the head of its governance subchain. -/
def AccountInfo.governedBy (info : AccountInfo H) (r : Request H) : AccountInfo H :=
  { info with governanceSubchainHead := cfg.requestHash r }

def applyStartRepresenting (r : Request H) (gov : Governance H) (setStake : SetStake)
    (levyPercentage : BitVec 8) (info : AccountInfo H) : Gov H (AccountInfo H) := do
  let rep : RepInfo H := ⟨0,0,cfg.requestHash r,levyPercentage⟩
  modify fun g => { g with reps := g.reps.insert r.origin rep }
  requestPut cfg r
  applySetStake cfg r gov setStake (info.governedBy cfg r)

def applyStopRepresenting (r : Request H) (gov : Governance H) (setStake : SetStake)
    (info : AccountInfo H) : Gov H (AccountInfo H) := do
  let g ← get
  let rep ← need (g.reps.lookup r.origin) .other
  set { g with
    reps := g.reps.insert r.origin { rep with repActionTip := cfg.requestHash r }
    removeReps := markRemove cfg r.origin g.removeReps }
  requestPut cfg r
  applySetStake cfg r gov setStake (info.governedBy cfg r)

def applyElectionVote (r : Request H) (gov : Governance H) (votes : List (CandidateVotePair H))
    (info : AccountInfo H) : Gov H (AccountInfo H) := do
  requestPut cfg r
  let g ← get
  let rep ← need (g.reps.lookup r.origin) .other
  set { g with reps := g.reps.insert r.origin { rep with electionVoteTip := cfg.requestHash r } }
  let votingPower ← getCurrentVotingPower r.origin gov.epochNum
  votes.forM fun p =>
    candidateAddVote cfg p.account (p.numVotes.setWidth 128 * votingPower) gov.epochNum
  let vpi ← getVotingPowerInfo r.origin gov.epochNum
  init r.origin rep.levyPercentage gov.epochNum
    (vpi.current.selfStake + vpi.current.lockedProxied) vpi.current.selfStake
  pure (info.governedBy cfg r)

/-- A current delegate becomes a candidate only in the last epoch of its term. The search runs past
the end of the delegates where it finds nothing. -/
def mayBecomeCandidate (g : GovernanceStore H) (account : H) : Option Bool := do
  let eb ← g.epochGetN 0
  if eb.delegates.any (·.account = account) then do
    let eb ← g.epochGetN 3
    if eb.delegates.any fun d => d.account = account && d.startingTerm then some true else none
  else some true

def applyAnnounceCandidacy (r : Request H) (gov : Governance H) (setStake : SetStake)
    (levyPercentage : BitVec 8) (info : AccountInfo H) : Gov H (AccountInfo H) := do
  let g ← get
  let hash := cfg.requestHash r
  let rep := (g.reps.lookup r.origin).getD ⟨hash,0,hash,levyPercentage⟩
  let nextStake ← need (setStake.or ((g.stakes.lookup r.origin).map StakedFunds.amount)) .other
  set { g with reps := g.reps.insert r.origin { rep with candidacyActionTip := hash } }
  if ← need (mayBecomeCandidate g r.origin) .other then
    candidatePut cfg r.origin ⟨0,0,nextStake,gov.epochNum,levyPercentage⟩
  requestPut cfg r
  applySetStake cfg r gov setStake (info.governedBy cfg r)

/-- Set the next stake of a candidate; of any other account nothing is stored. -/
def updateCandidate (account : H) (epoch : Epoch) (nextStake : Option Amount) : Gov H Unit := do
  let g ← get
  match g.candidates.lookup account with
  | none => pure ()
  | some c =>
    let c := c.transitionIfNecessary epoch
    candidatePut cfg account { c with nextStake := nextStake.getD c.nextStake }

def applyRenounceCandidacy (r : Request H) (gov : Governance H) (setStake : SetStake)
    (info : AccountInfo H) : Gov H (AccountInfo H) := do
  modify fun g =>
    if r.origin ∈ g.candidates then
      { g with removeCandidates := markRemove cfg r.origin g.removeCandidates }
    else g
  updateCandidate cfg r.origin gov.epochNum setStake
  let g ← get
  let rep ← need (g.reps.lookup r.origin) .other
  set { g with
    reps := g.reps.insert r.origin { rep with candidacyActionTip := cfg.requestHash r } }
  requestPut cfg r
  applySetStake cfg r gov setStake (info.governedBy cfg r)

def applyProxy (r : Request H) (gov : Governance H) (lockProxy : Amount) (rep : H)
    (info : AccountInfo H) : Gov H (AccountInfo H) := do
  requestPut cfg r
  stake cfg r.origin (info.governedBy cfg r) lockProxy rep gov.epochNum

def applyStake (r : Request H) (gov : Governance H) (amount : Amount) (info : AccountInfo H) :
    Gov H (AccountInfo H) := do
  requestPut cfg r
  let info ← stake cfg r.origin (info.governedBy cfg r) amount r.origin gov.epochNum
  updateCandidate cfg r.origin gov.epochNum (some amount)
  pure info

def applyGovernance (r : Request H) (info : AccountInfo H) : Gov H (AccountInfo H) :=
  match r.body with
  | .proxy gov lockProxy rep => applyProxy cfg r gov lockProxy rep info
  | .electionVote gov votes => applyElectionVote cfg r gov votes info
  | .announceCandidacy gov setStake levy => applyAnnounceCandidacy cfg r gov setStake levy info
  | .renounceCandidacy gov setStake => applyRenounceCandidacy cfg r gov setStake info
  | .startRepresenting gov setStake levy => applyStartRepresenting cfg r gov setStake levy info
  | .stopRepresenting gov setStake => applyStopRepresenting cfg r gov setStake info
  | .stake gov amount => applyStake cfg r gov amount info
  | .unstake gov => applyStake cfg r gov 0 info
  | _ => pure info

end Apply

section Validate

open Check StakingManager

def Body.isCandidacyAction : Body H → Bool
  | .announceCandidacy _ _ _ => true
  | .renounceCandidacy _ _ => true
  | .stopRepresenting _ _ => true
  | _ => false

def Body.isRepAction : Body H → Bool
  | .announceCandidacy _ _ _ => true
  | .startRepresenting _ _ _ => true
  | .stopRepresenting _ _ => true
  | _ => false

def Body.isAnnounceCandidacy : Body H → Bool
  | .announceCandidacy _ _ _ => true
  | _ => false

def Body.isRenounceCandidacy : Body H → Bool
  | .renounceCandidacy _ _ => true
  | _ => false

def Body.isStopRepresenting : Body H → Bool
  | .stopRepresenting _ _ => true
  | _ => false

namespace GovernanceStore

def requestBody (g : GovernanceStore H) (hash : H) : Option (Body H) :=
  (g.requests.lookup hash).map Request.body

/-- A tip that the code asserts to be set and to be a request of the expected kind. -/
def verifiedTip (g : GovernanceStore H) (hash : H) (verify : Body H → Bool) : Option (Body H) :=
  if hash = 0 then none else (g.requestBody hash).filter verify

/-- The time between the start of an epoch and its epoch block. -/
def isDeadPeriod (g : GovernanceStore H) (epoch : Epoch) : Option Bool := do
  let tip ← g.epochTip
  let eb ← g.epochGet tip.1
  some (eb.epochNumber + 2 = epoch)

def isDelegateNextEpoch (g : GovernanceStore H) (account : H) : Option Bool :=
  (g.epochGetN 0).map fun eb => eb.delegates.any (·.account = account)

/-- Whether the origin will have the stake of a representative, or of a candidate. -/
def hasMinGovernanceStake (g : GovernanceStore H) (origin : H) (setStake : SetStake)
    (announces : Bool) : Bool :=
  match setStake.or ((g.stakes.lookup origin).map StakedFunds.amount) with
  | some stake => minRepStake ≤ stake && (!announces || minDelegateStake ≤ stake)
  | none => false

end GovernanceStore

variable (g : GovernanceStore H)

/-- The checks every request of an election starts with, in the order most of them use. -/
def validateElection (gov : Governance H) (info : AccountInfo H) (epoch : Epoch) :
    Validation Unit := do
  require cfg.enableElections .noElections
  require (gov.epochNum = epoch) .wrongEpochNumber
  let dead ← attempt (g.isDeadPeriod epoch)
  require (!dead) .electionsDeadPeriod
  require (info.governanceSubchainHead = gov.governanceSubchainPrev) .invalidGovernanceSubchain

def validateCanStake (r : Request H) (info : AccountInfo H) (amount : Amount) (target : H)
    (epoch : Epoch) : Validation Unit := do
  let canStake ← attempt (StakingManager.validate cfg g r.origin info amount target epoch r.fee)
  require canStake .insufficientFundsForStake

def validateSetStake (r : Request H) (gov : Governance H) (info : AccountInfo H)
    (setStake : SetStake) : Validation Unit :=
  match setStake with
  | some amount => validateCanStake cfg g r info amount r.origin gov.epochNum
  | none => pure ()

/-- A vote counts for a candidate that announced in an earlier epoch or renounces in this one. -/
def validateVote (epoch : Epoch) (p : CandidateVotePair H) : Validation Unit := do
  let _ ← found (g.candidates.lookup p.account) .invalidCandidate
  let rep ← attempt (g.reps.lookup p.account)
  let action ← attempt (g.verifiedTip rep.candidacyActionTip Body.isCandidacyAction)
  let actionEpoch ← attempt action.getEpochNum
  require (if action.isAnnounceCandidacy then actionEpoch ≠ epoch else epoch ≤ actionEpoch)
    .invalidCandidate

/-- Too many votes are refused without a result code. -/
def validateElectionVote (r : Request H) (gov : Governance H)
    (votes : List (CandidateVotePair H)) (info : AccountInfo H) (epoch : Epoch) :
    Validation Unit := do
  require (gov.epochNum = epoch) .wrongEpochNumber
  require (startElectionsEpoch ≤ epoch ∧ cfg.enableElections) .noElections
  require (info.governanceSubchainHead = gov.governanceSubchainPrev) .invalidGovernanceSubchain
  let dead ← attempt (g.isDeadPeriod epoch)
  require (!dead) .electionsDeadPeriod
  let rep ← found (g.reps.lookup r.origin) .notARep
  let action ← attempt (g.verifiedTip rep.repActionTip Body.isRepAction)
  let actionEpoch ← attempt action.getEpochNum
  require (action.isStopRepresenting ∨ actionEpoch ≠ epoch) .pendingRepAction
  require (action.isStopRepresenting → epoch ≤ actionEpoch) .notARep
  if rep.electionVoteTip = 0 then pure ()
  else do
    let vote ← attempt (g.requestBody rep.electionVoteTip)
    let voteEpoch ← attempt vote.getEpochNum
    require (voteEpoch ≠ epoch) .alreadyVoted
  votes.forM (validateVote g epoch)
  require ((votes.map (·.numVotes.toNat)).sum ≤ maxVotes) cfg.unassignedCode

def validateAnnounceCandidacy (r : Request H) (gov : Governance H) (setStake : SetStake)
    (info : AccountInfo H) (epoch : Epoch) : Validation Unit := do
  require (gov.epochNum = epoch) .wrongEpochNumber
  let dead ← attempt (g.isDeadPeriod epoch)
  require (!dead) .electionsDeadPeriod
  require (startElectionsEpoch - 1 ≤ epoch ∧ cfg.enableElections) .noElections
  require (info.governanceSubchainHead = gov.governanceSubchainPrev) .invalidGovernanceSubchain
  match g.reps.lookup r.origin with
  | none => pure ()
  | some rep => do
    let action ← attempt (g.verifiedTip rep.repActionTip Body.isRepAction)
    let actionEpoch ← attempt action.getEpochNum
    require (actionEpoch ≠ epoch) .pendingRepAction
    if rep.candidacyActionTip = 0 then pure ()
    else do
      let action ← attempt (g.verifiedTip rep.candidacyActionTip Body.isCandidacyAction)
      require (!action.isAnnounceCandidacy) .alreadyAnnouncedCandidacy
      let actionEpoch ← attempt action.getEpochNum
      require (actionEpoch ≠ epoch) .pendingCandidacyAction
  require (g.hasMinGovernanceStake r.origin setStake true) .notEnoughStake
  validateSetStake cfg g r gov info setStake

def validateRenounceCandidacy (r : Request H) (gov : Governance H) (setStake : SetStake)
    (info : AccountInfo H) (epoch : Epoch) : Validation Unit := do
  validateElection cfg g gov info epoch
  let rep ← found (g.reps.lookup r.origin) .notARep
  require (rep.candidacyActionTip ≠ 0) .neverAnnouncedCandidacy
  let action ← attempt (g.verifiedTip rep.candidacyActionTip Body.isCandidacyAction)
  require (!action.isRenounceCandidacy) .alreadyRenouncedCandidacy
  let actionEpoch ← attempt action.getEpochNum
  require (actionEpoch ≠ epoch) .pendingCandidacyAction
  require (g.hasMinGovernanceStake r.origin setStake false) .notEnoughStake
  validateSetStake cfg g r gov info setStake

def validateStartRepresenting (r : Request H) (gov : Governance H) (setStake : SetStake)
    (info : AccountInfo H) (epoch : Epoch) : Validation Unit := do
  validateElection cfg g gov info epoch
  match g.reps.lookup r.origin with
  | none => pure ()
  | some rep => do
    let action ← attempt (g.verifiedTip rep.repActionTip Body.isRepAction)
    require action.isStopRepresenting .isRep
    let actionEpoch ← attempt action.getEpochNum
    require (actionEpoch ≠ epoch) .pendingRepAction
  require (g.hasMinGovernanceStake r.origin setStake false) .notEnoughStake
  validateSetStake cfg g r gov info setStake

def validateStopRepresenting (r : Request H) (gov : Governance H) (setStake : SetStake)
    (info : AccountInfo H) (epoch : Epoch) : Validation Unit := do
  validateElection cfg g gov info epoch
  let rep ← found (g.reps.lookup r.origin) .notARep
  let action ← attempt (g.verifiedTip rep.repActionTip Body.isRepAction)
  let actionEpoch ← attempt action.getEpochNum
  require (actionEpoch ≠ epoch) .pendingRepAction
  require (!action.isStopRepresenting) .notARep
  if rep.candidacyActionTip = 0 then pure ()
  else do
    let action ← attempt (g.verifiedTip rep.candidacyActionTip Body.isCandidacyAction)
    let actionEpoch ← attempt action.getEpochNum
    require (actionEpoch ≠ epoch) .pendingCandidacyAction
    require (!action.isAnnounceCandidacy) .isCandidate
  let delegate ← attempt (g.isDelegateNextEpoch r.origin)
  require (!delegate) .isDelegate
  validateSetStake cfg g r gov info setStake

/-- The start of the checks of `Proxy`, `Stake` and `Unstake`. -/
def validateSubchain (gov : Governance H) (info : AccountInfo H) (epoch : Epoch) :
    Validation Unit := do
  require (gov.epochNum = epoch) .wrongEpochNumber
  require (info.governanceSubchainHead = gov.governanceSubchainPrev) .invalidGovernanceSubchain

/-- An account that is a representative next epoch cannot choose one. -/
def validateProxy (r : Request H) (gov : Governance H) (lockProxy : Amount) (rep : H)
    (info : AccountInfo H) (epoch : Epoch) : Validation Unit := do
  validateSubchain gov info epoch
  require (rep ≠ r.origin) .proxyToSelf
  match g.reps.lookup r.origin with
  | none => pure ()
  | some own => do
    let action ← attempt (g.requestBody own.repActionTip)
    require action.isStopRepresenting .isRep
  let other ← found (g.reps.lookup rep) .notARep
  let action ← attempt (g.requestBody other.repActionTip)
  require (!action.isStopRepresenting) .notARep
  validateCanStake cfg g r info lockProxy rep gov.epochNum

def validateStake (r : Request H) (gov : Governance H) (amount : Amount) (info : AccountInfo H)
    (epoch : Epoch) : Validation Unit := do
  validateSubchain gov info epoch
  require (info.newRep.rep = 0) .notARep
  match g.reps.lookup r.origin with
  | none => pure ()
  | some rep => do
    let action ← attempt (g.requestBody rep.repActionTip)
    require (action.isStopRepresenting ∨ minRepStake ≤ amount) .notEnoughStake
    if rep.candidacyActionTip = 0 then pure ()
    else do
      let action ← attempt (g.requestBody rep.candidacyActionTip)
      require (action.isAnnounceCandidacy → minDelegateStake ≤ amount) .notEnoughStake
  validateCanStake cfg g r info amount r.origin gov.epochNum

def validateUnstake (r : Request H) (gov : Governance H) (info : AccountInfo H) (epoch : Epoch) :
    Validation Unit := do
  validateSubchain gov info epoch
  require (info.newRep.rep = 0) .notARep
  match g.reps.lookup r.origin with
  | none => pure ()
  | some rep => do
    let action ← attempt (g.requestBody rep.repActionTip)
    require action.isStopRepresenting .notEnoughStake

/-- A claim is for an epoch that has ended and is unclaimed, by a user account. -/
def validateClaim (epochHash : H) (epochNumber : Epoch) (info : Account H) : Validation Unit := do
  let user ← attempt info.asUser
  let tip ← attempt g.epochTip
  require (epochNumber ≤ tip.2 ∧ user.claimEpoch < epochNumber) .wrongEpochNumber
  let eb ← found (g.epochGet epochHash) .invalidEpochHash
  require (eb.epochNumber = epochNumber) .wrongEpochNumber

/-- The check of a governance request against its account, which must be a user account. -/
def validateGovernance (r : Request H) (info : Account H) (epoch : Epoch) : Validation Unit := do
  let info ← found info.asUser .invalidAccountType
  match r.body with
  | .proxy gov lockProxy rep => validateProxy cfg g r gov lockProxy rep info epoch
  | .electionVote gov votes => validateElectionVote cfg g r gov votes info epoch
  | .announceCandidacy gov setStake _ =>
    validateAnnounceCandidacy cfg g r gov setStake info epoch
  | .renounceCandidacy gov setStake => validateRenounceCandidacy cfg g r gov setStake info epoch
  | .startRepresenting gov setStake _ =>
    validateStartRepresenting cfg g r gov setStake info epoch
  | .stopRepresenting gov setStake => validateStopRepresenting cfg g r gov setStake info epoch
  | .stake gov amount => validateStake cfg g r gov amount info epoch
  | .unstake gov => validateUnstake g r gov info epoch
  | _ => pure ()

end Validate

/-! ## What governance leaves alone -/

section Restaked

open Program StakingManager

theorem AccountInfo.restaked_governedBy (info : AccountInfo H) (r : Request H) :
    info.Restaked (info.governedBy cfg r) :=
  ⟨rfl,rfl,id⟩

theorem restaked_applySetStake (r : Request H) (gov : Governance H) (setStake : SetStake)
    (info : AccountInfo H) :
    (applySetStake cfg r gov setStake (info.governedBy cfg r)).Ensures info.Restaked := by
  cases setStake with
  | none => exact ensures_pure (info.restaked_governedBy cfg r)
  | some amount => exact (restaked_stake ..).mono fun _ h => (info.restaked_governedBy cfg r).trans h

theorem restaked_applyStake (r : Request H) (gov : Governance H) (amount : Amount)
    (info : AccountInfo H) : (applyStake cfg r gov amount info).Ensures info.Restaked := by
  refine ensures_after fun _ => (restaked_stake ..).bind fun info' h => ensures_after fun _ => ?_
  exact ensures_pure ((info.restaked_governedBy cfg r).trans h)

theorem restaked_applyAnnounceCandidacy (r : Request H) (gov : Governance H) (setStake : SetStake)
    (levyPercentage : BitVec 8) (info : AccountInfo H) :
    (applyAnnounceCandidacy cfg r gov setStake levyPercentage info).Ensures info.Restaked := by
  refine ensures_after fun g => ensures_after fun nextStake => ensures_after fun _ =>
    ensures_after fun becomes => ensures_ite (fun _ => ?_) fun _ => ?_
  · exact ensures_after fun _ => ensures_after fun _ => restaked_applySetStake ..
  · exact ensures_after fun _ => restaked_applySetStake ..

/-- A governance request changes neither the chains nor the balance nor the tokens of its
account. -/
theorem restaked_applyGovernance (r : Request H) (info : AccountInfo H) :
    (applyGovernance cfg r info).Ensures info.Restaked := by
  unfold applyGovernance
  cases r.body with
  | proxy gov lockProxy rep =>
    exact ensures_after fun _ => (restaked_stake ..).mono fun _ h =>
      (info.restaked_governedBy cfg r).trans h
  | electionVote gov votes =>
    exact ensures_after fun _ => ensures_after fun _ => ensures_after fun _ =>
      ensures_after fun _ => ensures_after fun _ => ensures_after fun _ => ensures_after fun _ =>
      ensures_after fun _ => ensures_pure (info.restaked_governedBy cfg r)
  | announceCandidacy gov setStake levy => exact restaked_applyAnnounceCandidacy ..
  | renounceCandidacy gov setStake =>
    exact ensures_after fun _ => ensures_after fun _ => ensures_after fun _ =>
      ensures_after fun _ => ensures_after fun _ => ensures_after fun _ =>
      restaked_applySetStake ..
  | startRepresenting gov setStake levy =>
    exact ensures_after fun _ => ensures_after fun _ => restaked_applySetStake ..
  | stopRepresenting gov setStake =>
    exact ensures_after fun _ => ensures_after fun _ => ensures_after fun _ =>
      ensures_after fun _ => restaked_applySetStake ..
  | stake gov amount => exact restaked_applyStake ..
  | unstake gov => exact restaked_applyStake ..
  | _ => exact ensures_pure (.refl info)

end Restaked
end LogosCore.Ledger
