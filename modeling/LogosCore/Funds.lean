import LogosCore.Machine
import LogosCore.Thawing

/-! # Runs of the staking code

A ledger of accounts and governance tables on which accounts stake and spend, thawed funds
are released, and the thawing funds of delegates are frozen and unfrozen. What an operation
does to the stake and the thawing funds of its account is followed exactly; liabilities only
decide whether funds may be moved to another target. -/
namespace LogosCore.Ledger

variable {H : Type} [DecidableEq H] [Zero H] (cfg : Config H)

/-- What can happen to the funds of an account; a stake is set to an amount and a target. -/
inductive FundsAction (H : Type)
  | stake (amount : Amount) (target : H)
  | setBalance (newBalance : Amount)
  | pruneThawing
  | markThawingAsFrozen (epochCreated : Epoch)
  | setExpirationOfFrozen (epochUnfrozen : Epoch)
deriving DecidableEq,Repr

structure FundsEvent (H : Type) where
  origin : H
  epoch : Epoch
  action : FundsAction H
deriving DecidableEq,Repr

structure Holdings (H : Type) where
  accounts : Table H (AccountInfo H)
  gov : GovernanceStore H

open Program StakingManager LiabilityManager

def FundsEvent.perform (e : FundsEvent H) (info : AccountInfo H) : Gov H (AccountInfo H) :=
  match e.action with
  | .stake amount target => stake cfg e.origin info amount target e.epoch
  | .setBalance newBalance => info.setBalance newBalance e.epoch
  | .pruneThawing => pruneThawing e.origin info e.epoch
  | .markThawingAsFrozen epochCreated => do
    markThawingAsFrozen cfg e.origin epochCreated
    pure info
  | .setExpirationOfFrozen epochUnfrozen => do
    setExpirationOfFrozen cfg e.origin epochUnfrozen
    pure info

namespace Holdings

/-- An account that is not there yet is a new one. -/
def info (s : Holdings H) (account : H) : AccountInfo H :=
  (s.accounts.lookup account).getD .default

def attempt (s : Holdings H) (e : FundsEvent H) : Except Halt (Holdings H) :=
  ((e.perform cfg (s.info e.origin)).run s.gov).map fun r =>
    ⟨s.accounts.insert e.origin r.1,r.2⟩

def reason (s : Holdings H) (e : FundsEvent H) : Option Halt :=
  match s.attempt cfg e with
  | .error r => some r
  | .ok _ => none

theorem attempt_of_reason {s : Holdings H} {e : FundsEvent H} {r : Halt}
    (h : s.reason cfg e = some r) : s.attempt cfg e = .error r := by
  unfold reason at h
  cases hattempt : s.attempt cfg e with
  | error r' =>
    rw [hattempt] at h
    rw [Option.some.inj h]
  | ok s' =>
    rw [hattempt] at h
    cases h

def step (s : Holdings H) (e : FundsEvent H) : Option (Holdings H × List Empty) :=
  (s.attempt cfg e).toOption.map fun s' => (s',[])

/-- Whether the code accepts the event: a stake request has to be valid. -/
def accepts (s : Holdings H) (e : FundsEvent H) : Bool :=
  match e.action with
  | .stake amount target =>
    StakingManager.validate cfg s.gov e.origin (s.info e.origin) amount target e.epoch 0 = some true
  | _ => true

@[simp] theorem info_insert (s : Holdings H) (account : H) (info' : AccountInfo H)
    (g : GovernanceStore H) (c : H) :
    (⟨s.accounts.insert account info',g⟩ : Holdings H).info c =
      if c = account then info' else s.info c := by
  by_cases h : c = account
  · subst h
    simp [info]
  · simp [info,h,AList.lookup_insert_ne h]

theorem step_eq_some {s s' : Holdings H} {e : FundsEvent H} {o : List Empty}
    (h : s.step cfg e = some (s',o)) :
    ∃ info' g',(e.perform cfg (s.info e.origin)).run s.gov = .ok (info',g') ∧
      s' = ⟨s.accounts.insert e.origin info',g'⟩ := by
  unfold step attempt at h
  cases hrun : (e.perform cfg (s.info e.origin)).run s.gov with
  | error reason =>
    rw [hrun] at h
    cases h
  | ok r =>
    rw [hrun] at h
    cases h
    exact ⟨r.1,r.2,rfl,rfl⟩

/-- Account 1 has 1000 available; accounts 2 and 3 have records of their voting power. -/
def sample : Holdings ℕ where
  accounts := AList.insert 1 { AccountInfo.default with
    toAccountBase := { AccountBase.default with balance := 1000 }
    availableBalance := 1000 } ∅
  gov := { GovernanceStore.empty with
    votingPower := AList.insert 2 ⟨.zero,.zero,0⟩ (AList.insert 3 ⟨.zero,.zero,0⟩ ∅) }

def sampleEvent (epoch : Epoch) (action : FundsAction ℕ) : FundsEvent ℕ := ⟨1,epoch,action⟩

end Holdings

/-- The funds are those of `g0`, except that one account has the given stake and thawing
funds. -/
structure GovernanceStore.Holds (g0 : GovernanceStore H) (account : H)
    (staked : Option (StakedFunds H)) (thawing : List (ThawingFunds H))
    (g : GovernanceStore H) : Prop where
  staked : ∀ c,g.stakes.lookup c = if c = account then staked else g0.stakes.lookup c
  thawing : ∀ c,g.thawing.duplicates c = if c = account then thawing else g0.thawing.duplicates c

namespace GovernanceStore.Holds

variable {g0 g g' : GovernanceStore H} {account : H} {staked : Option (StakedFunds H)}
  {ts : List (ThawingFunds H)}

theorem self (g : GovernanceStore H) (account : H) :
    g.Holds account (g.stakes.lookup account) (g.thawing.duplicates account) g := by
  constructor
  · intro c
    split
    · next h => rw [h]
    · rfl
  · intro c
    split
    · next h => rw [h]
    · rfl

variable (h : g0.Holds account staked ts g)
include h

theorem power (hp : g.OnlyPower g') : g0.Holds account staked ts g' := by
  rw [hp]
  exact ⟨h.staked,h.thawing⟩

theorem liabilities (hl : g.OnlyLiabilities g') : g0.Holds account staked ts g' := by
  rw [hl]
  exact ⟨h.staked,h.thawing⟩

theorem lookup_self : g.stakes.lookup account = staked := by
  rw [h.staked,if_pos rfl]

theorem duplicates_self : g.thawing.duplicates account = ts := by
  rw [h.thawing,if_pos rfl]

theorem putStake (funds : StakedFunds H) : g0.Holds account (some funds) ts
      { g with stakes := g.stakes.insert account funds } := by
  refine ⟨fun c => ?_,h.thawing⟩
  have hc := h.staked c
  by_cases hca : c = account
  · subst hca
    simp
  · simp only [AList.lookup_insert_ne hca,if_neg hca] at hc ⊢
    exact hc

theorem dropStake : g0.Holds account none ts { g with stakes := g.stakes.erase account } := by
  refine ⟨fun c => ?_,h.thawing⟩
  have hc := h.staked c
  by_cases hca : c = account
  · subst hca
    simp
  · simp only [AList.lookup_erase_ne hca,if_neg hca] at hc ⊢
    exact hc

theorem setThawing {t : Table H (List (ThawingFunds H))} {ts' : List (ThawingFunds H)}
    (ht : ∀ c,t.duplicates c = if c = account then ts' else g.thawing.duplicates c) :
    g0.Holds account staked ts' { g with thawing := t } := by
  refine ⟨h.staked,fun c => ?_⟩
  have hc := h.thawing c
  by_cases hca : c = account
  · rw [ht,if_pos hca,if_pos hca]
  · rw [if_neg hca] at hc ⊢
    rw [ht,if_neg hca,hc]

theorem eraseThawing (t : ThawingFunds H) : g0.Holds account staked (ts.erase t)
      { g with thawing := g.thawing.eraseDuplicate account t } :=
  h.setThawing fun c => by rw [Table.duplicates_eraseDuplicate,h.duplicates_self]

end GovernanceStore.Holds

namespace StakingManager

variable {g0 g : GovernanceStore H} {account : H} {staked : Option (StakedFunds H)}
  {ts : List (ThawingFunds H)}

/-- Nothing is required of the reason to halt. -/
abbrev anyHalt : Halt → Prop := fun _ => True

/-- Only the record of when the secondary liabilities were pruned may differ. -/
def SecondaryUpdated (info info' : AccountInfo H) : Prop :=
  info' = { info with
    epochSecondaryLiabilitiesUpdated := info'.epochSecondaryLiabilitiesUpdated }

theorem SecondaryUpdated.trans {a b c : AccountInfo H} (hab : SecondaryUpdated a b)
    (hbc : SecondaryUpdated b c) : SecondaryUpdated a c := by
  rw [hab] at hbc
  exact hbc

theorem SecondaryUpdated.available {info info' : AccountInfo H} (h : SecondaryUpdated info info') :
    info'.availableBalance = info.availableBalance := by
  rw [h]

theorem SecondaryUpdated.balance {info info' : AccountInfo H} (h : SecondaryUpdated info info') :
    info'.balance = info.balance := by
  rw [h]

/-- The hash of the liability that stands behind stake or thawing funds. -/
def fundsHash (target source : H) (expiration : Epoch) : H :=
  cfg.liabilityHash target source expiration false

theorem wp_createStakedFunds {E : Halt → Prop} {Q : StakedFunds H → GovernanceStore H → Prop}
    {target source : H} :
    (createStakedFunds cfg target source).wp E Q g ↔
      Q ⟨target,0,fundsHash cfg target source 0⟩ (g.putLiability cfg ⟨target,source,0,0,false⟩) := by
  unfold createStakedFunds createUnexpiringLiability
  rw [wp_bind,wp_store]
  rfl

theorem wp_createThawingFunds {E : Halt → Prop} {Q : ThawingFunds H → GovernanceStore H → Prop}
    {target source : H} {epoch : Epoch} :
    (createThawingFunds cfg target source epoch).wp E Q g ↔
      Q ⟨epoch + thawingPeriod,target,0,fundsHash cfg target source (epoch + thawingPeriod)⟩
        (g.putLiability cfg ⟨target,source,0,epoch + thawingPeriod,false⟩) := by
  unfold createThawingFunds createExpiringLiability
  rw [wp_bind,wp_store]
  rfl

variable (h : g0.Holds account staked ts g)
include h

theorem holds_storeStaked (funds : StakedFunds H) :
    (storeStaked funds account).wp anyHalt (fun _ => g0.Holds account (some funds) ts) g := by
  exact (onlyLiabilities_updateLiabilityAmount trivial ..).imp fun _ _ hl =>
    (h.putStake funds).liabilities hl

theorem holds_updateStaked (funds : StakedFunds H) (newAmount : Amount) :
    (updateStaked funds account newAmount).wp anyHalt (fun _ => g0.Holds account
      (if 0 < newAmount then some { funds with amount := newAmount } else none) ts) g := by
  refine wp_ite (fun hpos => ?_) fun hzero => ?_
  · rw [if_pos hpos]
    exact holds_storeStaked h _
  · rw [if_neg hzero,wp_bind,wp_modify]
    exact (onlyLiabilities_deleteLiability trivial ..).imp fun _ _ hl =>
      h.dropStake.liabilities hl

theorem holds_storeThawing (funds : ThawingFunds H) : (storeThawing cfg funds account).wp anyHalt
      (fun _ => g0.Holds account staked (deposit cfg funds ts)) g := by
  unfold storeThawing deposit
  rw [wp_bind,wp_get,h.duplicates_self]
  dsimp only
  cases (findConsolidated funds ts).bind fun i => (ts[i]?).map fun t => (i,t) with
  | some found =>
    refine wp_ite (fun _ => ?_) fun _ => trivial
    rw [wp_bind,wp_set]
    refine (onlyLiabilities_updateLiabilityAmount trivial ..).imp fun _ _ hl => ?_
    exact (h.setThawing fun c => Table.duplicates_insert ..).liabilities hl
  | none =>
    rw [wp_bind,wp_set]
    refine (onlyLiabilities_updateLiabilityAmount trivial ..).imp fun _ _ hl => ?_
    refine (h.setThawing fun c => ?_).liabilities hl
    rw [Table.duplicates_putDuplicate,h.duplicates_self]

theorem holds_updateThawing (funds : ThawingFunds H) (newAmount : Amount) :
    (updateThawing cfg funds account newAmount).wp anyHalt (fun _ => g0.Holds account staked
      (if 0 < newAmount then deposit cfg { funds with amount := newAmount } (ts.erase funds)
        else ts.erase funds)) g := by
  unfold updateThawing
  rw [wp_bind,wp_modify]
  have herase := h.eraseThawing funds
  refine wp_ite (fun hpos => ?_) fun hzero => ?_
  · rw [if_pos hpos]
    exact holds_storeThawing cfg herase _
  · rw [if_neg hzero]
    exact (onlyLiabilities_deleteLiability trivial ..).imp fun _ _ hl =>
      herase.liabilities hl

omit h

def extractable (inputAmount amountToExtract : Amount) : Amount :=
  if inputAmount < amountToExtract then inputAmount else amountToExtract

theorem extractable_le_input (inputAmount amountToExtract : Amount) :
    extractable inputAmount amountToExtract ≤ inputAmount := by
  unfold extractable
  split <;> bv_omega

theorem extractable_le (inputAmount amountToExtract : Amount) :
    extractable inputAmount amountToExtract ≤ amountToExtract := by
  unfold extractable
  split <;> bv_omega

/-- An input that is not enough is used up. -/
theorem sub_extractable_of_more {inputAmount amountToExtract : Amount}
    (h : 0 < amountToExtract - extractable inputAmount amountToExtract) :
    inputAmount - extractable inputAmount amountToExtract = 0 := by
  unfold extractable at h ⊢
  by_cases hlt : inputAmount < amountToExtract
  · rw [if_pos hlt]
    bv_omega
  · rw [if_neg hlt] at h
    bv_omega

end StakingManager

end LogosCore.Ledger
