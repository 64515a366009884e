import LogosCore.VotingPower

/-! # Staking

Stake, thawing funds and the liabilities that record them. Staking moves Logos between the
available part of a balance and the staked part; it never changes the balance itself. -/
namespace LogosCore.Ledger

variable {H : Type} [DecidableEq H] [Zero H] (cfg : Config H)

def thawingPeriod : Epoch := 42

section Liabilities

def Liability.hash (l : Liability H) : H :=
  cfg.liabilityHash l.target l.source l.expirationEpoch l.isSecondary

namespace LiabilityManager

open Program

/-- Liabilities of one hash are consolidated. -/
def store (l : Liability H) : Gov H H := do
  let g ← get
  let hash := l.hash cfg
  match g.masterLiabilities.lookup hash with
  | some existing =>
    let sum := { existing with amount := existing.amount + l.amount }
    set { g with masterLiabilities := g.masterLiabilities.insert hash sum }
  | none =>
    set { g with
      masterLiabilities := g.masterLiabilities.insert hash l
      repLiabilities := g.repLiabilities.putDuplicate (cfg.rank · ≤ cfg.rank ·) l.target hash }
  pure hash

def createExpiringLiability (target source : H) (amount : Amount) (expiration : Epoch) : Gov H H :=
  store cfg ⟨target,source,amount,expiration,false⟩

def createUnexpiringLiability (target source : H) (amount : Amount) : Gov H H :=
  store cfg ⟨target,source,amount,0,false⟩

def updateLiabilityAmount (hash : H) (amount : Amount) : Gov H Unit := do
  let g ← get
  match g.masterLiabilities.lookup hash with
  | none => halt .liability
  | some l =>
    let l := { l with amount := amount }
    set { g with masterLiabilities := g.masterLiabilities.insert hash l }

def deleteLiability (hash : H) : Gov H Unit := do
  let g ← get
  match g.masterLiabilities.lookup hash with
  | none => halt .liability
  | some l =>
    if hash ∈ g.repLiabilities.duplicates l.target then
      set { g with
        masterLiabilities := g.masterLiabilities.erase hash
        repLiabilities := g.repLiabilities.eraseDuplicate l.target hash }
    else halt .liability

/-- Deleting a secondary liability leaves its hash among those of the representative. -/
def deleteSecondaryLiability (hash : H) : Gov H Unit := do
  let g ← get
  match g.masterLiabilities.lookup hash with
  | none => halt .liability
  | some l =>
    if hash ∈ g.secondaryLiabilities.duplicates l.source then
      set { g with
        masterLiabilities := g.masterLiabilities.erase hash
        secondaryLiabilities := g.secondaryLiabilities.eraseDuplicate l.source hash }
    else halt .liability

def pruneSecondaryLiabilities (origin : H) (info : AccountInfo H) (epoch : Epoch) :
    Gov H (AccountInfo H) :=
  if epoch ≤ info.epochSecondaryLiabilitiesUpdated then pure info
  else do
    let g ← get
    (g.secondaryLiabilities.duplicates origin).forM fun hash => do
      let g ← get
      match g.masterLiabilities.lookup hash with
      | none => halt .liability
      | some l => if l.expirationEpoch ≤ epoch then deleteSecondaryLiability hash
    pure { info with epochSecondaryLiabilitiesUpdated := epoch }

/-- The target of the first liability that has not expired; each one looked at must exist. -/
def unexpiredTarget (g : GovernanceStore H) (epoch : Epoch) : List H → Option (Option H)
  | [] => some none
  | hash::hashes => (g.masterLiabilities.lookup hash).bind fun l =>
    if epoch < l.expirationEpoch then some (some l.target) else unexpiredTarget g epoch hashes

/-- All secondary liabilities of one source have the same target. -/
def canCreateSecondaryLiability (g : GovernanceStore H) (target source : H) (epoch : Epoch) :
    Option Bool :=
  let l : Liability H := ⟨target,source,0,epoch + thawingPeriod,true⟩
  if target = source then some false
  else if l.hash cfg ∈ g.masterLiabilities then some true
  else (unexpiredTarget g epoch (g.secondaryLiabilities.duplicates source)).map fun
    | some other => decide (other = target)
    | none => true

def createSecondaryLiability (target source : H) (amount : Amount) (expiration : Epoch)
    (info : AccountInfo H) (epoch : Epoch) : Gov H (Bool × AccountInfo H) := do
  if expiration ≤ epoch then halt .other
  else do
    let info ← pruneSecondaryLiabilities source info epoch
    let g ← get
    if ← need (canCreateSecondaryLiability cfg g target source epoch) .liability then do
      let hash ← store cfg ⟨target,source,amount,expiration,true⟩
      let g ← get
      set { g with
        secondaryLiabilities :=
          g.secondaryLiabilities.putDuplicate (cfg.rank · ≤ cfg.rank ·) source hash }
      pure (true,info)
    else pure (false,info)

end LiabilityManager
end Liabilities

/-- The order of the stored bytes, which begin with the inverted expiration. -/
def ThawingFunds.sortKey (t : ThawingFunds H) : List ℕ :=
  let inverted := 2 ^ 32 - 1 - t.expirationEpoch.toNat
  [inverted % 256,inverted / 256 % 256,inverted / 256 ^ 2 % 256,inverted / 256 ^ 3,
    cfg.rank t.target,t.amount.toNat,cfg.rank t.liabilityHash]

/-- Funds whose thawing period is over; an expiration of zero marks frozen funds. -/
def ThawingFunds.Pruneable (t : ThawingFunds H) (epoch : Epoch) : Prop :=
  t.expirationEpoch ≠ 0 ∧ t.expirationEpoch ≤ epoch

instance (t : ThawingFunds H) (epoch : Epoch) : Decidable (t.Pruneable epoch) :=
  inferInstanceAs (Decidable (_ ∧ _))

def pruneableAmount (ts : List (ThawingFunds H)) (epoch : Epoch) : Amount :=
  ts.foldl (fun total t => if t.Pruneable epoch then total + t.amount else total) 0

namespace StakingManager

open LiabilityManager VotingPowerManager Program

def createStakedFunds (target source : H) : Gov H (StakedFunds H) := do
  let hash ← createUnexpiringLiability cfg target source 0
  pure ⟨target,0,hash⟩

def createThawingFunds (target source : H) (epochCreated : Epoch) : Gov H (ThawingFunds H) := do
  let expiration := epochCreated + thawingPeriod
  let hash ← createExpiringLiability cfg target source 0 expiration
  pure ⟨expiration,target,0,hash⟩

def storeStaked (funds : StakedFunds H) (origin : H) : Gov H Unit := do
  modify fun g => { g with stakes := g.stakes.insert origin funds }
  updateLiabilityAmount funds.liabilityHash funds.amount

/-- The position of matching funds; the search gives up at the first that expires earlier. -/
def findConsolidated (funds : ThawingFunds H) : List (ThawingFunds H) → Option ℕ
  | [] => none
  | t::ts =>
    if t.target = funds.target ∧ t.expirationEpoch = funds.expirationEpoch then some 0
    else if t.expirationEpoch < funds.expirationEpoch then none
    else (findConsolidated funds ts).map (· + 1)

def storeThawing (funds : ThawingFunds H) (origin : H) : Gov H Unit := do
  let g ← get
  let ts := g.thawing.duplicates origin
  match (findConsolidated funds ts).bind fun i => (ts[i]?).map fun t => (i,t) with
  | some (i,t) =>
    if t.liabilityHash = funds.liabilityHash then do
      let t := { t with amount := t.amount + funds.amount }
      set { g with thawing := g.thawing.insert origin (ts.set i t) }
      updateLiabilityAmount t.liabilityHash t.amount
    else halt .other
  | none =>
    set { g with
      thawing := g.thawing.putDuplicate (ThawingFunds.sortKey cfg · ≤ ThawingFunds.sortKey cfg ·)
        origin funds }
    updateLiabilityAmount funds.liabilityHash funds.amount

def updateThawing (funds : ThawingFunds H) (origin : H) (newAmount : Amount) : Gov H Unit := do
  modify fun g => { g with thawing := g.thawing.eraseDuplicate origin funds }
  if 0 < newAmount then storeThawing cfg { funds with amount := newAmount } origin
  else deleteLiability funds.liabilityHash

def updateStaked (funds : StakedFunds H) (origin : H) (newAmount : Amount) : Gov H Unit := do
  if 0 < newAmount then storeStaked { funds with amount := newAmount } origin
  else do
    modify fun g => { g with stakes := g.stakes.erase origin }
    deleteLiability funds.liabilityHash

/-- Take an amount, or as much as there is, out of an input for an output with another target.
`update` stores what is left of the input; the caller adds to the output. -/
def extract (inputTarget : H) (inputAmount : Amount) (inputExpiration : Epoch)
    (update : Amount → Gov H Unit) (outputTarget : H) (amountToExtract : Amount) (origin : H)
    (info : AccountInfo H) (epoch : Epoch) : Gov H (Amount × AccountInfo H) := do
  let amount := if inputAmount < amountToExtract then inputAmount else amountToExtract
  if inputTarget = outputTarget then do
    update (inputAmount - amount)
    pure (amount,info)
  else if inputTarget = origin then pure (0,info)
  else do
    let expiration := if inputExpiration = 0 then epoch + thawingPeriod else inputExpiration
    let (created,info) ←
      createSecondaryLiability cfg inputTarget origin amount expiration info epoch
    if created then do
      update (inputAmount - amount)
      pure (amount,info)
    else pure (0,info)

def beginThawing (origin : H) (info : AccountInfo H) (epoch : Epoch) (curStake : StakedFunds H)
    (amountToThaw : Amount) : Gov H (AccountInfo H) := do
  let thawing ← createThawingFunds cfg curStake.target origin epoch
  let (extracted,info) ← extract cfg curStake.target curStake.amount 0
    (updateStaked curStake origin) thawing.target amountToThaw origin info epoch
  if extracted = amountToThaw then do
    storeThawing cfg { thawing with amount := thawing.amount + extracted } origin
    pure info
  else halt .other

/-- Stake directed at its own account is self stake, any other is locked proxied stake. -/
def subtractStake (origin target : H) (amount : Amount) (epoch : Epoch) : Gov H Unit :=
  if target = origin then subtractSelfStake target amount epoch
  else subtractLockedProxied target amount epoch

def addStake (origin target : H) (amount : Amount) (epoch : Epoch) : Gov H Unit :=
  if target = origin then addSelfStake target amount epoch
  else addLockedProxied target amount epoch

def reduceStake (origin : H) (info : AccountInfo H) (epoch : Epoch) (curStake : StakedFunds H)
    (amountToThaw : Amount) : Gov H (AccountInfo H) := do
  subtractStake origin curStake.target amountToThaw epoch
  beginThawing cfg origin info epoch curStake amountToThaw

/-- The old target loses the stake and, if it was a representative, the available balance. -/
def leaveTarget (origin target : H) (amount available : Amount) (epoch : Epoch) : Gov H Unit := do
  subtractStake origin target amount epoch
  if target ≠ origin then subtractUnlockedProxied target available epoch

def joinTarget (origin target : H) (amount available : Amount) (epoch : Epoch) : Gov H Unit := do
  addStake origin target amount epoch
  if target ≠ origin then addUnlockedProxied target available epoch

/-- What was not redirected begins to thaw. -/
def thawRest (origin : H) (info : AccountInfo H) (epoch : Epoch) (curStake : StakedFunds H) :
    Gov H (AccountInfo H) :=
  if 0 < curStake.amount then beginThawing cfg origin info epoch curStake curStake.amount
  else pure info

/-- Redirect the stake: the new staked funds, what is left to be staked, and the account. -/
def changeTarget (origin : H) (info : AccountInfo H) (epoch : Epoch) (curStake : StakedFunds H)
    (newTarget : H) (amountLeft : Amount) : Gov H (StakedFunds H × Amount × AccountInfo H) := do
  leaveTarget origin curStake.target curStake.amount info.availableBalance epoch
  let newStake ← createStakedFunds cfg newTarget origin
  let (extracted,info) ← extract cfg curStake.target curStake.amount 0
    (updateStaked curStake origin) newStake.target amountLeft origin info epoch
  let newStake := { newStake with amount := newStake.amount + extracted }
  joinTarget origin newStake.target newStake.amount info.availableBalance epoch
  let info ← thawRest cfg origin info epoch
    { curStake with amount := curStake.amount - extracted }
  pure (newStake,amountLeft - extracted,info)

omit [DecidableEq H] [Zero H] in
/-- Updates are active in the next epoch; a second one keeps the old representative's record. -/
def updateRep (epoch : Epoch) (info : AccountInfo H) (rep : H) : Option (AccountInfo H) :=
  if epoch + 1 < info.newRep.epochFirstActive then none
  else some { info with
    oldRep := if info.newRep.epochFirstActive < epoch + 1 then info.newRep else info.oldRep
    newRep := ⟨rep,epoch + 1⟩ }

/-- Use the thawing funds in their stored order until nothing is left to be staked. -/
def extractThawing (origin : H) (epoch : Epoch) :
    List (ThawingFunds H) → StakedFunds H → Amount → AccountInfo H →
      Gov H (StakedFunds H × Amount × AccountInfo H)
  | [],curStake,amountLeft,info => pure (curStake,amountLeft,info)
  | t::ts,curStake,amountLeft,info => do
    let (extracted,info) ← extract cfg t.target t.amount t.expirationEpoch
      (updateThawing cfg t origin) curStake.target amountLeft origin info epoch
    let curStake := { curStake with amount := curStake.amount + extracted }
    if 0 < amountLeft - extracted then
      extractThawing origin epoch ts curStake (amountLeft - extracted) info
    else pure (curStake,amountLeft - extracted,info)

def stakeAvailableFunds (curStake : StakedFunds H) (amount : Amount) (info : AccountInfo H)
    (epoch : Epoch) : Gov H (StakedFunds H × AccountInfo H) := do
  if info.availableBalance < amount then halt .balance
  else do
    let info ← info.setAvailableBalance (info.availableBalance - amount) epoch
    pure ({ curStake with amount := curStake.amount + amount },info)

/-- Take what is still missing from thawing and then from available funds. -/
def raiseStake (origin : H) (info : AccountInfo H) (curStake : StakedFunds H)
    (amountLeft : Amount) (target : H) (epoch : Epoch) : Gov H (StakedFunds H × AccountInfo H) :=
  if 0 < amountLeft then do
    addStake origin target amountLeft epoch
    let g ← get
    let (curStake,amountLeft,info) ←
      extractThawing cfg origin epoch (g.thawing.duplicates origin) curStake amountLeft info
    if 0 < amountLeft then stakeAvailableFunds curStake amountLeft info epoch
    else pure (curStake,info)
  else pure (curStake,info)

/-- What all ways of raising the stake share; the change counts for the new representative. -/
def completeStake (origin : H) (info : AccountInfo H) (curStake : StakedFunds H)
    (amountLeft : Amount) (target : H) (epoch : Epoch) : Gov H (AccountInfo H) := do
  let info ← need (updateRep epoch info (if target = origin then 0 else target)) .other
  let (curStake,info) ← raiseStake cfg origin info curStake amountLeft target epoch
  if curStake.amount ≠ 0 then storeStaked curStake origin
  pure info

/-- An account without stake passes its available balance on to the new representative. -/
def beginStake (origin : H) (info : AccountInfo H) (target : H) (epoch : Epoch) : Gov H Unit := do
  if target ≠ origin then addUnlockedProxied target info.availableBalance epoch
  let rep ← need (info.getRepForEpoch (epoch + 1)) .votingPower
  if rep ≠ 0 then subtractUnlockedProxied rep info.availableBalance epoch

/-- Set the stake of an account to an amount and direct it at a target. -/
def stake (origin : H) (info : AccountInfo H) (amount : Amount) (target : H) (epoch : Epoch) :
    Gov H (AccountInfo H) := do
  let g ← get
  match g.stakes.lookup origin with
  | some curStake =>
    if target ≠ curStake.target then do
      let (curStake,amountLeft,info) ← changeTarget cfg origin info epoch curStake target amount
      if amount = 0 then do
        modify fun g => { g with stakes := g.stakes.erase origin }
        pure info
      else completeStake cfg origin info curStake amountLeft target epoch
    else if amount < curStake.amount then
      reduceStake cfg origin info epoch curStake (curStake.amount - amount)
    else completeStake cfg origin info curStake (amount - curStake.amount) target epoch
  | none => do
    let curStake ← createStakedFunds cfg target origin
    beginStake origin info target epoch
    completeStake cfg origin info curStake amount target epoch

def getPruneableThawingAmount (g : GovernanceStore H) (origin : H) (info : AccountInfo H)
    (epoch : Epoch) : Amount :=
  if epoch ≤ info.epochThawingUpdated then 0
  else pruneableAmount (g.thawing.duplicates origin) epoch

def pruneThawing (origin : H) (info : AccountInfo H) (epoch : Epoch) : Gov H (AccountInfo H) := do
  if epoch ≤ info.epochThawingUpdated then pure info
  else do
    let g ← get
    let ts := g.thawing.duplicates origin
    set { g with thawing := g.thawing.insert origin (ts.filter fun t => ¬t.Pruneable epoch) }
    let info := { info with epochThawingUpdated := epoch }
    info.setAvailableBalance (info.availableBalance + pruneableAmount ts epoch) epoch

/-- Take marked thawing funds out, up to the first that `stops` it, and return them redated. -/
def redateLoop (origin : H) (expiration : Epoch) (marked stops : ThawingFunds H → Bool) :
    List (ThawingFunds H) → Gov H (List (ThawingFunds H))
  | [] => pure []
  | t::ts =>
    if marked t then do
      deleteLiability t.liabilityHash
      let hash ← LiabilityManager.store cfg ⟨t.target,origin,t.amount,expiration,false⟩
      modify fun g => { g with thawing := g.thawing.eraseDuplicate origin t }
      let updated ← redateLoop origin expiration marked stops ts
      pure ({ t with expirationEpoch := expiration,liabilityHash := hash }::updated)
    else if stops t then pure []
    else redateLoop origin expiration marked stops ts

def redate (origin : H) (expiration : Epoch) (marked stops : ThawingFunds H → Bool) :
    Gov H Unit := do
  let g ← get
  let updated ← redateLoop cfg origin expiration marked stops (g.thawing.duplicates origin)
  updated.forM fun t => storeThawing cfg t origin

/-- Self stake of a delegate that began to thaw in an epoch does not expire for now. -/
def markThawingAsFrozen (origin : H) (epochCreated : Epoch) : Gov H Unit :=
  let expiration := epochCreated + thawingPeriod
  redate cfg origin 0 (fun t => t.expirationEpoch = expiration ∧ t.target = origin)
    fun t => t.expirationEpoch < expiration

/-- Frozen funds thaw from the given epoch on. -/
def setExpirationOfFrozen (origin : H) (epochUnfrozen : Epoch) : Gov H Unit :=
  redate cfg origin (epochUnfrozen + thawingPeriod) (fun t => t.expirationEpoch = 0) fun _ => false

/-- What `validate` remembers of secondary liabilities; all must have one target. -/
structure LiabilityCache (H : Type) where
  answers : List (H × Bool)
  created : Bool

def LiabilityCache.ask (g : GovernanceStore H) (origin : H) (epoch : Epoch)
    (c : LiabilityCache H) (target : H) : Option (Bool × LiabilityCache H) :=
  match c.answers.lookup target with
  | some b => some (b,c)
  | none =>
    if c.created then some (false,c)
    else (canCreateSecondaryLiability cfg g target origin epoch).map fun b =>
      (b,⟨(target,b)::c.answers,b⟩)

def validateThawing (g : GovernanceStore H) (origin target : H) (epoch : Epoch) :
    List (ThawingFunds H) → Amount → LiabilityCache H → Option Bool
  | [],_,_ => some false
  | t::ts,remaining,cache => do
    let (usable,cache) ←
      if t.target = target then some (true,cache) else cache.ask cfg g origin epoch t.target
    if usable then
      if remaining ≤ t.amount then some true
      else validateThawing g origin target epoch ts (remaining - t.amount) cache
    else validateThawing g origin target epoch ts remaining cache

/-- Whether an account can set its stake to an amount directed at a target. -/
def validate (g : GovernanceStore H) (origin : H) (info : AccountInfo H) (amount : Amount)
    (target : H) (epoch : Epoch) (fee : Amount) : Option Bool :=
  if info.availableBalance < fee then some false
  else
    let available := info.availableBalance - fee
    if amount ≤ available then some true
    else
      let available := available + getPruneableThawingAmount g origin info epoch
      if amount ≤ available then some true
      else
        let remaining := amount - available
        let thawing := g.thawing.duplicates origin
        match g.stakes.lookup origin with
        | some curStake =>
          if 0 < curStake.amount then do
            let (usable,cache) ←
              if curStake.target = target then some (true,⟨[],false⟩)
              else LiabilityCache.ask cfg g origin epoch ⟨[],false⟩ curStake.target
            if usable then
              if remaining ≤ curStake.amount then some true
              else
                validateThawing cfg g origin target epoch thawing (remaining - curStake.amount) cache
            else validateThawing cfg g origin target epoch thawing remaining cache
          else validateThawing cfg g origin target epoch thawing remaining ⟨[],false⟩
        | none => validateThawing cfg g origin target epoch thawing remaining ⟨[],false⟩

end StakingManager

/-! ## What staking leaves alone -/

/-- The same chains, balance and token entries, and the available part within the balance. -/
structure AccountInfo.Restaked (info info' : AccountInfo H) : Prop where
  base : info'.toAccountBase = info.toAccountBase
  entries : info'.entries = info.entries
  available : info.availableBalance ≤ info.balance → info'.availableBalance ≤ info'.balance

namespace AccountInfo.Restaked

theorem refl (info : AccountInfo H) : info.Restaked info := ⟨rfl,rfl,id⟩

theorem trans {a b c : AccountInfo H} (hab : a.Restaked b) (hbc : b.Restaked c) : a.Restaked c :=
  ⟨hbc.base.trans hab.base,hbc.entries.trans hab.entries,fun h => hbc.available (hab.available h)⟩

end AccountInfo.Restaked

open Program

namespace StakingManager

/-- Pruning makes available exactly what validation took to be pruneable. -/
theorem ensures_pruneThawing {g g' : GovernanceStore H} {origin : H} {info info' : AccountInfo H}
    {epoch : Epoch} (h : (pruneThawing origin info epoch).run g = .ok (info',g')) :
    info.Restaked info' ∧
    info'.availableBalance =
      info.availableBalance + getPruneableThawingAmount g origin info epoch := by
  by_cases hdone : epoch ≤ info.epochThawingUpdated
  · have hrun : (pruneThawing origin info epoch).run g = .ok (info,g) := by
      simp only [pruneThawing,if_pos hdone]
      rfl
    cases hrun.symm.trans h
    refine ⟨.refl info,?_⟩
    rw [getPruneableThawingAmount,if_pos hdone]
    exact (BitVec.add_zero _).symm
  · unfold pruneThawing at h
    rw [if_neg hdone] at h
    have hset : StateT.run (AccountInfo.setAvailableBalance { info with epochThawingUpdated := epoch }
        (info.availableBalance + pruneableAmount (g.thawing.duplicates origin) epoch) epoch) _ =
          .ok (info',g') := h
    obtain ⟨rfl,hle⟩ := (AccountInfo.ensures_setAvailableBalance ..).result hset
    refine ⟨⟨rfl,rfl,fun _ => hle⟩,?_⟩
    rw [getPruneableThawingAmount,if_neg hdone]

end StakingManager
end LogosCore.Ledger
