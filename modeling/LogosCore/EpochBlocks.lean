import LogosCore.Application
import LogosCore.EpochTransition

/-! # Application of epoch blocks

An epoch block distributes the fees of its epoch among the delegates that served in it, each
according to its own stake, and then the tables are moved to the next epoch. -/
namespace LogosCore.Ledger

variable {H : Type} [DecidableEq H] [Zero H] (cfg : Config H)

def genesisEpoch : Epoch := 2

/-- Why an epoch block is not applied: a division by zero, or a check of the code. -/
inductive EpochFault
  | division | halt
deriving DecidableEq,Repr

namespace Store

/-- The order in which delegates are rewarded: more stake first. -/
def stakeGreater (digest : Delegate H → ℕ) (d1 d2 : Delegate H) : Bool :=
  if d1.rawStake ≠ d2.rawStake then d2.rawStake < d1.rawStake else digest d2 < digest d1

def earnings (totalStake feePool : Amount) (d : Delegate H) : Option Rational :=
  (Rational.make d.rawStake.toNat totalStake.toNat).map (·.mul (.ofNat feePool.toNat))

omit [DecidableEq H] [Zero H] in
/-- The dust after a reward, and the whole amount to deposit. -/
def collectDust (dust reward : Rational) : Option (Amount × Rational) :=
  reward.remainder.map fun remainder =>
    let whole : Amount := BitVec.ofInt 128 reward.truncate
    let dust := dust.add remainder
    if dust.den ≤ dust.num then (whole + 1,dust.decrement) else (whole,dust)

/-- Put a whole amount into the account of a delegate; the block is the source of its receive. -/
def depositReward (s : Store H) (block : EpochBlock H) (hash : H) (index : BitVec 16) (account : H)
    (info : AccountInfo H) (deposit : Amount) : Option (Store H) := do
  let (info,s) ← s.runGov (info.setBalance (info.balance + deposit) (block.epochNumber + 1))
  let receive : ReceiveBlock H := ⟨info.receiveHead,hash,index⟩
  let info := { info with
    receiveCount := info.receiveCount + 1
    receiveHead := receive.hash cfg }
  (s.accountPut account (.user info)).placeReceive cfg receive block.timestamp

def payDelegate (s : Store H) (block : EpochBlock H) (hash : H) (index : BitVec 16) (account : H)
    (reward : Rational) : Option (Store H) := do
  let info ← (s.accounts.lookup account).bind (·.asUser)
  let (deposit,dust) ← collectDust info.dust reward
  let info := { info with dust := dust }
  if 0 < deposit then s.depositReward cfg block hash index account info deposit
  else some (s.accountPut account (.user info))

def payDelegates (block : EpochBlock H) (hash : H) (totalStake : Amount) :
    BitVec 16 → Rational → List (Delegate H) → Store H → Except EpochFault (Rational × Store H)
  | _,remaining,[],s => .ok (remaining,s)
  | index,remaining,d::ds,s =>
    if remaining = .zero then .ok (remaining,s)
    else match earnings totalStake block.transactionFeePool d with
      | none => .error .division
      | some reward => match s.payDelegate cfg block hash index d.account reward with
        | none => .error .halt
        | some s => payDelegates block hash totalStake (index + 1) (remaining.sub reward) ds s

/-- The delegates that are rewarded are those named two epoch blocks before. -/
def rewarded (g : GovernanceStore H) (block : EpochBlock H) : Option (List (Delegate H)) :=
  ((g.epochGet block.previous).bind fun previous => g.epochGet previous.previous).map (·.delegates)

def applyRewards (digest : Delegate H → ℕ) (s : Store H) (block : EpochBlock H) (hash : H) :
    Except EpochFault (Store H) :=
  match rewarded s.gov block with
  | none => .error .halt
  | some delegates =>
    let delegates := delegates.insertionSort fun d1 d2 => !stakeGreater digest d2 d1
    (payDelegates cfg block hash (delegates.map (·.rawStake)).sum 0
        (.ofNat block.transactionFeePool.toNat) delegates s).map fun r =>
      { r.2 with feePools := r.2.feePools.erase block.epochNumber }

/-- An empty pool is not distributed. -/
def distributeFees (digest : Delegate H → ℕ) (s : Store H) (block : EpochBlock H) (hash : H) :
    Except EpochFault (Store H) :=
  if 0 < block.transactionFeePool then s.applyRewards cfg digest block hash else .ok s

/-- Store an epoch block and move the tables to the next epoch. -/
def moveToNextEpoch (hash : H) (block : EpochBlock H) : Gov H Unit := do
  EpochPersistence.updateThawing cfg block
  epochPut hash block
  if cfg.enableElections then transitionNextEpoch cfg (block.epochNumber + 1)

/-- A governance procedure as a part of the application of an epoch block. -/
def runEpoch (s : Store H) (x : Gov H Unit) : Except EpochFault (Store H) :=
  match s.runGov x with
  | none => .error .halt
  | some r => .ok r.2

def applyEpoch (digest : Delegate H → ℕ) (s : Store H) (hash : H) (block : EpochBlock H) :
    Except EpochFault (Store H) :=
  if hash ∈ s.gov.epochs then .ok s
  else do
    let s ← s.runEpoch (moveToNextEpoch cfg hash block)
    if block.epochNumber ≤ genesisEpoch then .ok s
    else do
      let s ← s.distributeFees cfg digest block hash
      s.runEpoch (updateGlobalRewards block)

end Store
end LogosCore.Ledger
