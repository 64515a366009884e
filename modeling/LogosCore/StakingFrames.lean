import LogosCore.StakingLaws

/-! # What staking leaves alone

Setting a stake writes the stake and the thawing funds of one account, liabilities and voting
power. Whatever is read from other tables stays as it was, the account keeps its chains, balance
and tokens, and afterwards the amount is staked with the target. -/
namespace LogosCore.Ledger

variable {H : Type} [DecidableEq H] [Zero H] {cfg : Config H}

open Program

/-- What is read has nothing to do with power, liabilities, thawing funds and rewards. -/
class Apart {δ : Type} (f : GovernanceStore H → δ) : Prop where
  power : ∀ {g g' : GovernanceStore H},g.OnlyPower g' → f g' = f g
  liabilities : ∀ {g g' : GovernanceStore H},g.OnlyLiabilities g' → f g' = f g
  thawing : ∀ (g : GovernanceStore H) thawing,f { g with thawing := thawing } = f g
  rewards : ∀ (g : GovernanceStore H) rewards globalRewards,
    f { g with rewards := rewards,globalRewards := globalRewards } = f g

/-- It has nothing to do with staked funds either. -/
class StakeApart {δ : Type} (f : GovernanceStore H → δ) : Prop extends Apart f where
  stakes : ∀ (g : GovernanceStore H) stakes,f { g with stakes := stakes } = f g

variable {δ : Type} {f : GovernanceStore H → δ} {α : Type}

private theorem leaves_of_onlyLiabilities [Apart f] {x : Gov H α}
    (h : ∀ g,x.wp (fun _ => True) (fun _ g' => g.OnlyLiabilities g') g) : x.Leaves f :=
  ⟨fun g => (h g).imp fun _ _ hg => Apart.liabilities hg⟩

section Power

open VotingPowerManager

variable [Apart f]

theorem leaves_setBalance (info : AccountInfo H) (newBalance : Amount) (epoch : Epoch) :
    (info.setBalance newBalance epoch).Leaves f :=
  ⟨fun g => (info.wp_setBalance trivial newBalance epoch (.inr trivial) g).imp
    fun _ _ h => Apart.power h.1⟩

theorem leaves_setAvailableBalance (info : AccountInfo H) (newAvailable : Amount) (epoch : Epoch) :
    (info.setAvailableBalance newAvailable epoch).Leaves f :=
  ⟨fun g => (info.wp_setAvailableBalance trivial newAvailable epoch (.inr trivial) g).imp
    fun _ _ h => Apart.power h.1⟩

end Power

namespace LiabilityManager

variable [Apart f]

theorem leaves_store (l : Liability H) : (store cfg l).Leaves f := by
  exact ⟨fun g => (wp_store cfg).mpr (Apart.liabilities (g.onlyLiabilities_putLiability cfg l))⟩

theorem leaves_updateLiabilityAmount (hash : H) (amount : Amount) :
    (updateLiabilityAmount hash amount).Leaves f :=
  leaves_of_onlyLiabilities fun g => onlyLiabilities_updateLiabilityAmount trivial hash amount g

theorem leaves_deleteLiability (hash : H) : (deleteLiability hash).Leaves f :=
  leaves_of_onlyLiabilities fun g => onlyLiabilities_deleteLiability trivial hash g

end LiabilityManager

namespace StakingManager

open LiabilityManager VotingPowerManager

theorem leaves_storeStaked [StakeApart f] (funds : StakedFunds H) (origin : H) :
    (storeStaked funds origin).Leaves f :=
  (leaves_modify fun g => StakeApart.stakes g _).bind fun _ => leaves_updateLiabilityAmount _ _

theorem leaves_storeThawing [Apart f] (funds : ThawingFunds H) (origin : H) :
    (storeThawing cfg funds origin).Leaves f := by
  refine leaves_get fun g => ?_
  dsimp only
  cases (findConsolidated funds (g.thawing.duplicates origin)).bind fun i =>
      ((g.thawing.duplicates origin)[i]?).map fun t => (i,t) with
  | some p =>
    refine wp_ite (fun _ => ?_) fun _ => trivial
    exact ((leaves_updateLiabilityAmount _ _).reads _).imp fun _ _ h => h.trans (Apart.thawing g _)
  | none =>
    exact ((leaves_updateLiabilityAmount _ _).reads _).imp fun _ _ h => h.trans (Apart.thawing g _)

theorem leaves_updateThawing [Apart f] (funds : ThawingFunds H) (origin : H) (newAmount : Amount) :
    (updateThawing cfg funds origin newAmount).Leaves f :=
  (leaves_modify fun g => Apart.thawing g _).bind fun _ =>
    leaves_ite (leaves_storeThawing _ _) (leaves_deleteLiability _)

theorem leaves_updateStaked [StakeApart f] (funds : StakedFunds H) (origin : H)
    (newAmount : Amount) : (updateStaked funds origin newAmount).Leaves f :=
  leaves_ite (leaves_storeStaked _ _)
    ((leaves_modify fun g => StakeApart.stakes g _).bind fun _ => leaves_deleteLiability _)

/-- Nothing that is read has changed, and the account is only staked anew. -/
def frame (f : GovernanceStore H → δ) (info0 : AccountInfo H) (g0 : GovernanceStore H) : Acting H :=
  fun info _ _ _ _ g => info0.Restaked info ∧ f g = f g0

variable {g0 g : GovernanceStore H} {origin target : H} {info0 info : AccountInfo H} {epoch : Epoch}
  {amount : Amount}

theorem frame_leaves {x : Gov H α} {d : δ} (hx : x.Leaves f) (h : info0.Restaked info ∧ f g = d) :
    x.wp anyHalt (fun _ g' => info0.Restaked info ∧ f g' = d) g :=
  (hx.reads g).imp fun _ _ hg => ⟨h.1,hg.trans h.2⟩

theorem frame_laws [StakeApart f] : Acting.StakeLaws cfg g0 origin anyHalt False False epoch target
    (frame f info0 g) where
  other := trivial
  wellFormed h := h.elim
  distinct h := h.elim
  storeThawing h _ _ _ := frame_leaves (leaves_storeThawing ..) h.1
  votingPower := trivial
  balance := trivial
  power h hp := ⟨h.1.1,(Apart.power hp).trans h.1.2⟩
  spend := by
    intro info info' st ts ks n g x h hle heq
    refine ⟨h.1.trans ⟨by rw [heq],by rw [heq],fun hsound => ?_⟩,h.2⟩
    rw [heq]
    bv_omega
  createStaked h _ := ⟨h.1.1,(Apart.liabilities
    (GovernanceStore.onlyLiabilities_putLiability ..)).trans h.1.2⟩
  createThawing h _ := ⟨h.1.1,(Apart.liabilities
    (GovernanceStore.onlyLiabilities_putLiability ..)).trans h.1.2⟩
  secondary h _ _ _ := (onlyLiabilities_createSecondaryLiability cfg trivial trivial ..).imp
    fun r g' hr => ⟨h.1.1.trans (by rw [hr.2]; exact ⟨rfl,rfl,id⟩),
      (Apart.liabilities hr.1).trans h.1.2⟩
  updateStaked h _ := frame_leaves (leaves_updateStaked ..) h.1
  storeStaked h _ _ _ _ _ _ := frame_leaves (leaves_storeStaked ..) h.1
  dropStake h _ := ⟨h.1.1,(StakeApart.stakes ..).trans h.1.2⟩
  updateThawing h _ _ _ _ := frame_leaves (leaves_updateThawing ..) h.1
  empty h _ := h.1

end StakingManager

/-- One account has the amount staked with the target, and no other stake differs. -/
structure GovernanceStore.Restakes (g : GovernanceStore H) (origin target : H) (amount : Amount)
    (g' : GovernanceStore H) : Prop where
  others : ∀ c,c ≠ origin → g'.stakes.lookup c = g.stakes.lookup c
  own : amount ≠ 0 → ∃ hash,g'.stakes.lookup origin = some ⟨target,amount,hash⟩

namespace StakingManager

variable {g : GovernanceStore H} {origin target : H} {info : AccountInfo H} {epoch : Epoch}
  {amount : Amount}

theorem frame_stake [StakeApart f] :
    (stake cfg origin info amount target epoch).wp anyHalt (fun info' g' =>
      info.Restaked info' ∧ f g' = f g ∧ g.Restakes origin target amount g') g := by
  have hself : (frame f info g).On g origin info (g.stakes.lookup origin)
    (g.thawing.duplicates origin) [] 0 g := ⟨⟨.refl info,rfl⟩,.self g origin⟩
  refine (Acting.on_stake (frame_laws (f := f)) hself False.elim).imp fun info' g' h => ?_
  obtain ⟨st,ts,ks,⟨⟨hinfo,hf⟩,hholds⟩,-,hamount,htarget⟩ := h
  refine ⟨hinfo,hf,fun c hc => ?_,fun hne => ?_⟩
  · rw [hholds.staked,if_neg hc]
  · rw [hholds.lookup_self]
    cases st with
    | none => exact absurd (BitVec.eq_of_toNat_eq hamount.symm) hne
    | some s =>
      have hstaked : s.amount = amount := BitVec.eq_of_toNat_eq hamount
      rcases htarget s rfl with htarget | hzero
      · exact ⟨s.liabilityHash,by rw [← hstaked,← htarget]⟩
      · exact absurd (hstaked.symm.trans hzero) hne

variable (cfg origin info amount target epoch)

theorem restaked_stake : (stake cfg origin info amount target epoch).Ensures info.Restaked :=
  haveI : StakeApart (fun _ : GovernanceStore H => ()) :=
    { power := fun _ => rfl,liabilities := fun _ => rfl,thawing := fun _ _ => rfl
      rewards := fun _ _ _ => rfl,stakes := fun _ _ => rfl }
  ensures_iff.mpr fun _ => (frame_stake (f := fun _ => ())).imp fun _ _ h => h.1

theorem leaves_stake [StakeApart f] : (stake cfg origin info amount target epoch).Leaves f :=
  ⟨fun _ => frame_stake.imp fun _ _ h => h.2.1⟩

end StakingManager

end LogosCore.Ledger
