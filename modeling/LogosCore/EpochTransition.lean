import LogosCore.Elections

/-! # The transition to the next epoch

Who the delegates of the next epoch are, and what the epoch block that names them does to the
tables of candidates, representatives, thawing funds and rewards when it is stored. -/
namespace LogosCore.Ledger

variable {H : Type} [DecidableEq H] [Zero H]

def numDelegates : ℕ := 32

def termLength : ℕ := 4

def numElects : ℕ := numDelegates / termLength

namespace EpochVotingManager

/-- After the first elections the delegates of the genesis are replaced in four steps. -/
def shouldForceRetire (nextEpoch : Epoch) : Bool :=
  startElectionsEpoch < nextEpoch && nextEpoch ≤ startElectionsEpoch + 4

def getDelegatesToForceRetire (g : GovernanceStore H) (nextEpoch : Epoch) :
    Option (List (Delegate H)) :=
  let numEpochsAgo := (nextEpoch - startElectionsEpoch - 1).toNat
  if numEpochsAgo < 4 then (g.epochGetN numEpochsAgo).map fun eb =>
    ((eb.delegates.drop (numEpochsAgo * numElects)).take numElects).dedup
  else none

/-- The delegates whose term ends, eight of the current ones, compared by all fields. -/
def getRetiringDelegates (g : GovernanceStore H) (nextEpoch : Epoch) : Option (List (Delegate H)) :=
  if startElectionsEpoch < nextEpoch then do
    let retiring ←
      if shouldForceRetire nextEpoch then getDelegatesToForceRetire g nextEpoch
      else (g.epochGetNonExtension 3).map fun eb =>
        ((eb.delegates.filter (·.startingTerm)).map fun d => { d with startingTerm := false }).dedup
    let current ← g.epochGetN 0
    if current.delegates.countP (· ∈ retiring) = 8 then some retiring else none
  else some []

/-- All leading candidates, in the order of their keys in the database. -/
def getElectionWinners (cfg : Config H) (g : GovernanceStore H) : List (H × CandidateInfo) :=
  Table.listed cfg.rank g.leadingCandidates

/-- The winners as delegates, with the keys they announced. -/
def getDelegateElects (cfg : Config H) (keys : H → H) (g : GovernanceStore H) (nextEpoch : Epoch) :
    List (Delegate H) :=
  if startElectionsEpoch < nextEpoch then (getElectionWinners cfg g).map fun p =>
    ⟨p.1,keys p.1,p.2.votesReceivedWeighted,p.2.curStake,p.2.votesReceivedWeighted,p.2.curStake,true⟩
  else []

omit [DecidableEq H] [Zero H] in
def isGreater (digest : Delegate H → ℕ) (d1 d2 : Delegate H) : Bool :=
  if d1.vote ≠ d2.vote then d2.vote < d1.vote
  else if d1.stake ≠ d2.stake then d2.stake < d1.stake
  else digest d2 < digest d1

section Redistribute

/-- What the delegates after one above the cap get of its excess, in 128-bit arithmetic. -/
def shareOfExcess (excess total value : Amount) : Amount := value * excess / total

/-- Cut every value to the cap and share the excess among those after it. -/
def capLoop (cap : Amount) : Amount → ℕ → List Amount → Option (List Amount)
  | _,_,[] => some []
  | _,0,values => some values
  | total,fuel+1,value::values =>
    if cap < value then
      let total := total - value
      if total = 0 ∧ values ≠ [] then none
      else
        let added := values.map (shareOfExcess (value - cap) total)
        (capLoop cap (total + added.sum) fuel (List.zipWith (· + ·) values added)).map (cap :: ·)
    else (capLoop cap total fuel values).map (value :: ·)

/-- No value is zero and none above an eighth of the sum. -/
def redistribute (values : List Amount) : Option (List Amount) :=
  let values := values.map fun value => if value = 0 then 1 else value
  capLoop (values.sum / 8) values.sum values.length values

end Redistribute

omit [DecidableEq H] [Zero H] in
def redistributed (delegates : List (Delegate H)) : Option (List (Delegate H)) := do
  let votes ← redistribute (delegates.map (·.vote))
  let stakes ← redistribute (delegates.map (·.stake))
  let delegates := List.zipWith (fun d vote => { d with vote := vote }) delegates votes
  some (List.zipWith (fun d stake => { d with stake := stake }) delegates stakes)

/-- Put the elects in the places of the retiring delegates, who stay with an extension. -/
def succeed (retiring : List H) (extend forced : Bool) :
    List (Delegate H) → List (Delegate H) → Option (List (Delegate H))
  | [],elects => if extend ∨ elects = [] then some [] else none
  | d::ds,elects =>
    if d.account ∈ retiring then
      if extend then
        (succeed retiring extend forced ds elects).map ({ d with startingTerm := forced } :: ·)
      else match elects with
        | [] => none
        | elect::elects => (succeed retiring extend forced ds elects).map (elect :: ·)
    else (succeed retiring extend forced ds elects).map ({ d with startingTerm := false } :: ·)

/-- The delegates of the next epoch; with too few winners the terms are extended. -/
def getNextEpochDelegates (cfg : Config H) (keys : H → H) (digest : Delegate H → ℕ)
    (enabled : Bool) (g : GovernanceStore H) (nextEpoch : Epoch) :
    Option (List (Delegate H) × Bool) := do
  let tip ← g.epochTip
  let previous ← g.epochGet tip.1
  if !enabled then some (previous.delegates,true)
  else do
    let retiring := ((← getRetiringDelegates g nextEpoch).map (·.account)).dedup
    let elects := getDelegateElects cfg keys g nextEpoch
    let numNew := if startElectionsEpoch < nextEpoch then numElects else 0
    let extend := elects.length ≠ numNew
    if ¬extend ∧ retiring.length ≠ numNew then none
    else do
      let forced := shouldForceRetire nextEpoch
      let delegates ← succeed retiring extend forced previous.delegates elects
      let delegates ← redistributed (delegates.insertionSort fun d1 d2 => !isGreater digest d2 d1)
      some (delegates,if extend then forced else true)

end EpochVotingManager

open Program VotingPowerManager StakingManager

variable (cfg : Config H)

/-- Delete the candidates that are marked for removal; each of them has to be there. -/
def removeMarkedCandidates (marked : List H) : Gov H Unit :=
  marked.forM fun account => do
    let g ← get
    if account ∈ g.candidates then set { g with candidates := g.candidates.erase account }
    else halt .other

/-- The marked candidates go, the leading ones start anew; the least in memory stays. -/
def updateCandidatesDB : Gov H Unit := do
  let g ← get
  removeMarkedCandidates g.removeCandidates
  modify fun g => { g with
    removeCandidates := []
    leadingCandidates := ∅
    leadingCandidatesSize := 0 }

/-- A delegate in the last epoch of its term is a candidate again, unless it renounced. -/
def addReelectionCandidates (nextEpoch : Epoch) : Gov H Unit := do
  let g ← get
  let eb ← need (g.epochGetNonExtension 3) .other
  (eb.delegates.filter (·.startingTerm)).forM fun d => do
    let g ← get
    match g.reps.lookup d.account with
    | none => pure ()
    | some rep => do
      let request ← need (g.requests.lookup rep.candidacyActionTip) .other
      match request.body with
      | .announceCandidacy gov _ levy => do
        let vpi ← getVotingPowerInfo d.account nextEpoch
        candidatePut cfg d.account
          ⟨0,vpi.current.selfStake,vpi.next.selfStake,gov.epochNum,levy⟩
      | _ => pure ()

/-- Those whose term begins are candidates no longer. -/
def markDelegateElectsAsRemove : Gov H Unit := do
  let g ← get
  let eb ← need (g.epochGetN 0) .other
  (eb.delegates.filter (·.startingTerm)).forM fun d =>
    modify fun g => { g with removeCandidates := markRemove cfg d.account g.removeCandidates }

def transitionCandidatesDBNextEpoch (nextEpoch : Epoch) : Gov H Unit := do
  if startElectionsEpoch ≤ nextEpoch then addReelectionCandidates cfg nextEpoch
  if startElectionsEpoch < nextEpoch then markDelegateElectsAsRemove cfg
  updateCandidatesDB

/-- The record of a former representative goes where nothing is left in it. -/
def tryPrune (rep : H) : Gov H Unit :=
  modify fun g => match g.votingPower.lookup rep with
    | none => g
    | some info => if canPrune g rep info then { g with votingPower := g.votingPower.erase rep } else g

/-- Delete the representatives that are marked for removal. -/
def updateRepresentativesDB : Gov H Unit := do
  let g ← get
  g.removeReps.forM fun rep => do
    let g ← get
    if rep ∈ g.reps then do
      set { g with reps := g.reps.erase rep }
      tryPrune rep
    else halt .other
  modify fun g => { g with removeReps := [] }

def transitionNextEpoch (nextEpoch : Epoch) : Gov H Unit := do
  transitionCandidatesDBNextEpoch cfg nextEpoch
  updateRepresentativesDB

/-- The frozen funds of delegates that leave begin to thaw; those of the others are frozen. -/
def EpochPersistence.updateThawing (block : EpochBlock H) : Gov H Unit := do
  let g ← get
  let previous ← need (g.epochGetN 0) .other
  let staying := block.delegates.map (·.account)
  (previous.delegates.filter fun d => decide (d.account ∉ staying)).forM fun d =>
    setExpirationOfFrozen cfg d.account (block.epochNumber + 2)
  block.delegates.forM fun d => markThawingAsFrozen cfg d.account block.epochNumber

def epochPut (hash : H) (block : EpochBlock H) : Gov H Unit :=
  modify fun g => { g with
    epochs := g.epochs.insert hash block
    epochTip := some (hash,block.epochNumber) }

/-- The Logos that are new in an epoch are its reward, if anyone has voted in it. -/
def updateGlobalRewards (block : EpochBlock H) : Gov H Unit := do
  let g ← get
  match g.globalRewards.lookup block.epochNumber with
  | none => pure ()
  | some info => do
    let previous ← need (g.epochGet block.previous) .other
    let reward := block.totalSupply - previous.totalSupply
    let info := { info with totalReward := reward,remainingReward := .ofNat reward.toNat }
    set { g with globalRewards := g.globalRewards.insert block.epochNumber info }

end LogosCore.Ledger
