import LogosCore.Store

/-! # Voting power

Voting power of a representative is kept for the current and for the next epoch. Balances of
the accounts that chose the representative enter it as unlocked proxied stake, which is why
changing a balance is a governance procedure. -/
namespace LogosCore.Ledger

variable {H : Type} [DecidableEq H] [Zero H]

def dilutionFactor : Amount := 25

inductive StakeType
  | lockedProxy | unlockedProxy | selfStake
deriving DecidableEq,Repr

inductive OpType
  | add | subtract
deriving DecidableEq,Repr

def VotingPowerSnapshot.zero : VotingPowerSnapshot := ⟨0,0,0⟩

namespace VotingPowerInfo

def getPower (info : VotingPowerInfo) : Amount :=
  info.current.selfStake + info.current.lockedProxied
    + info.current.unlockedProxied * dilutionFactor / 100

end VotingPowerInfo

/-- A sum that overflows or a difference below zero halts. -/
def OpType.apply (op : OpType) (data diff : Amount) : Option Amount :=
  if diff = 0 then some data
  else match op with
    | .add => if data + diff < diff then none else some (data + diff)
    | .subtract => if data < diff then none else some (data - diff)

def VotingPowerSnapshot.modify (p : VotingPowerSnapshot) (stakeType : StakeType) (op : OpType)
    (diff : Amount) : Option VotingPowerSnapshot :=
  match stakeType with
  | .lockedProxy => (op.apply p.lockedProxied diff).map fun a => { p with lockedProxied := a }
  | .unlockedProxy => (op.apply p.unlockedProxied diff).map fun a => { p with unlockedProxied := a }
  | .selfStake => (op.apply p.selfStake diff).map fun a => { p with selfStake := a }

namespace VotingPowerManager

open Program

/-- The power of an epoch is put aside before it is overwritten, unless it was voted with. -/
def handleFallback (info : VotingPowerInfo) (rep : H) (epoch : Epoch) : Gov H Unit := do
  let g ← get
  match g.reps.lookup rep with
  | none => set { g with votingPowerFallback := g.votingPowerFallback.erase rep }
  | some repInfo =>
    let storeFallback ←
      if repInfo.electionVoteTip = 0 then pure true
      else match (g.requests.lookup repInfo.electionVoteTip).map Request.body with
        | some (.electionVote gov _) => pure (decide (gov.epochNum < epoch - 1))
        | _ => halt .votingPower
    if storeFallback then
      let f : VotingPowerFallback :=
        ⟨info.getPower,info.current.lockedProxied + info.current.selfStake⟩
      set { g with votingPowerFallback := g.votingPowerFallback.insert rep f }
    else set { g with votingPowerFallback := g.votingPowerFallback.erase rep }

/-- The information as of an epoch, and whether it had to be moved forward. -/
def transitionIfNecessary (info : VotingPowerInfo) (epoch : Epoch) (rep : H) :
    Gov H (VotingPowerInfo × Bool) :=
  if info.epochModified < epoch then do
    handleFallback info rep epoch
    pure ({ info with current := info.next,epochModified := epoch },true)
  else pure (info,false)

/-- An update from the previous epoch affects the current power as well as the next. -/
def modify (info : VotingPowerInfo) (account : H) (stakeType : StakeType) (op : OpType)
    (epoch : Epoch) (diff : Amount) : Gov H VotingPowerInfo := do
  let (info,_) ← transitionIfNecessary info epoch account
  let current ←
    if epoch < info.epochModified then
      need (info.current.modify stakeType op diff) .votingPower
    else pure info.current
  let next ← need (info.next.modify stakeType op diff) .votingPower
  pure { info with current := current,next := next }

def canPrune (g : GovernanceStore H) (rep : H) (info : VotingPowerInfo) : Bool :=
  info.next = .zero && !decide (rep ∈ g.reps)

def storeOrPrune (rep : H) (info : VotingPowerInfo) : Gov H Unit := do
  let g ← get
  if canPrune g rep info then
    -- deleting a record that is not there is an error
    if rep ∈ g.votingPower then set { g with votingPower := g.votingPower.erase rep }
    else halt .votingPower
  else set { g with votingPower := g.votingPower.insert rep info }

/-- The common body of the updates: only a representative with a record has power to change. -/
def modifyStored (stakeType : StakeType) (op : OpType) (rep : H) (amount : Amount)
    (epoch : Epoch) : Gov H Unit := do
  let g ← get
  match g.votingPower.lookup rep with
  | none => halt .votingPower
  | some info =>
    let info ← modify info rep stakeType op epoch amount
    storeOrPrune rep info

def subtractLockedProxied : H → Amount → Epoch → Gov H Unit := modifyStored .lockedProxy .subtract

def addLockedProxied : H → Amount → Epoch → Gov H Unit := modifyStored .lockedProxy .add

def subtractUnlockedProxied : H → Amount → Epoch → Gov H Unit :=
  modifyStored .unlockedProxy .subtract

def addUnlockedProxied : H → Amount → Epoch → Gov H Unit := modifyStored .unlockedProxy .add

def subtractSelfStake : H → Amount → Epoch → Gov H Unit := modifyStored .selfStake .subtract

/-- Unlike the other updates this one creates the record it does not find. -/
def addSelfStake (rep : H) (amount : Amount) (epoch : Epoch) : Gov H Unit := do
  let g ← get
  let info := (g.votingPower.lookup rep).getD ⟨.zero,.zero,epoch⟩
  let info ← modify info rep .selfStake .add epoch amount
  storeOrPrune rep info

/-- The stored information of a representative, moved forward to an epoch and stored again. -/
def getVotingPowerInfo (rep : H) (epoch : Epoch) : Gov H VotingPowerInfo := do
  let g ← get
  match g.votingPower.lookup rep with
  | none => halt .votingPower
  | some info =>
    let (info,moved) ← transitionIfNecessary info epoch rep
    if moved then storeOrPrune rep info
    pure info

def getCurrentVotingPower (rep : H) (epoch : Epoch) : Gov H Amount := do
  let info ← getVotingPowerInfo rep epoch
  if epoch < info.epochModified then do
    let g ← get
    match g.votingPowerFallback.lookup rep with
    | some f => pure f.power
    | none => halt .votingPower
  else pure info.getPower

/-- The stake the power of an epoch rests on, without what is proxied but not locked. -/
def getCurrentTotalStake (rep : H) (epoch : Epoch) : Gov H Amount := do
  let info ← getVotingPowerInfo rep epoch
  if epoch < info.epochModified then do
    let g ← get
    match g.votingPowerFallback.lookup rep with
    | some f => pure f.totalStake
    | none => halt .votingPower
  else pure (info.current.lockedProxied + info.current.selfStake)

end VotingPowerManager

namespace AccountInfo

open VotingPowerManager Program

/-- Pass a change of the available balance on. If the representative has changed, the update is of
the previous epoch and is undone for the old one and made for the new one. -/
def proxyChange (info : AccountInfo H) (op : OpType) (diff : Amount) (epoch : Epoch) :
    Gov H Unit := do
  let rep ← need (info.getRepForEpoch (epoch + 1)) .votingPower
  let nextRep ← need (info.getRepForEpoch (epoch + 2)) .votingPower
  let update := modifyStored .unlockedProxy op
  let undo := modifyStored .unlockedProxy (match op with | .add => .subtract | .subtract => .add)
  if rep ≠ 0 then update rep diff epoch
  if nextRep ≠ 0 ∧ nextRep ≠ rep then do
    undo rep diff (epoch + 1)
    update nextRep diff (epoch + 1)

/-- A growing balance is available at once; a shrinking one must be available. -/
def setBalance (info : AccountInfo H) (newBalance : Amount) (epoch : Epoch) :
    Gov H (AccountInfo H) :=
  if info.balance < newBalance then do
    let diff := newBalance - info.balance
    info.proxyChange .add diff epoch
    pure { info with availableBalance := info.availableBalance + diff,balance := newBalance }
  else do
    let diff := info.balance - newBalance
    if info.availableBalance < diff then halt .balance
    else do
      info.proxyChange .subtract diff epoch
      pure { info with availableBalance := info.availableBalance - diff,balance := newBalance }

def setAvailableBalance (info : AccountInfo H) (newAvailable : Amount) (epoch : Epoch) :
    Gov H (AccountInfo H) := do
  if info.availableBalance < newAvailable then
    info.proxyChange .add (newAvailable - info.availableBalance) epoch
  else info.proxyChange .subtract (info.availableBalance - newAvailable) epoch
  if info.balance < newAvailable then halt .balance
  else pure { info with availableBalance := newAvailable }

omit [DecidableEq H] [Zero H] in
private theorem sub_as_add {a b c : Amount} : a - (b - c) = a + (c - b) := by
  bv_omega

/-- The available part changes by the same difference as the balance. -/
theorem ensures_setBalance (info : AccountInfo H) (newBalance : Amount) (epoch : Epoch) :
    (info.setBalance newBalance epoch).Ensures fun info' =>
      info' = { info with
        availableBalance := info.availableBalance + (newBalance - info.balance)
        balance := newBalance } ∧
      (newBalance ≤ info.balance → info.balance - newBalance ≤ info.availableBalance) := by
  unfold setBalance
  refine ensures_ite (fun hlt => ensures_after fun _ => ensures_pure ⟨rfl,fun hle => ?_⟩)
    fun _ => ?_
  · exact absurd hle (BitVec.not_le.mpr hlt)
  · refine ensures_ite (fun _ => ensures_halt) fun hdiff => ensures_after fun _ =>
      ensures_pure ⟨?_,fun _ => BitVec.not_lt.mp hdiff⟩
    rw [sub_as_add]

theorem ensures_setAvailableBalance (info : AccountInfo H) (newAvailable : Amount) (epoch : Epoch) :
    (info.setAvailableBalance newAvailable epoch).Ensures fun info' =>
      info' = { info with availableBalance := newAvailable } ∧ newAvailable ≤ info.balance := by
  have hcheck : (if info.balance < newAvailable then halt .balance
      else pure { info with availableBalance := newAvailable } : Gov H (AccountInfo H)).Ensures
      fun info' => info' = { info with availableBalance := newAvailable } ∧
        newAvailable ≤ info.balance :=
    ensures_ite (fun _ => ensures_halt) fun h => ensures_pure ⟨rfl,BitVec.not_lt.mp h⟩
  exact ensures_ite (fun _ => ensures_after fun _ => hcheck) fun _ => ensures_after fun _ => hcheck

end AccountInfo
end LogosCore.Ledger
