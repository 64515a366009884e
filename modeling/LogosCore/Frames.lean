import LogosCore.Staking

/-! # What the parts of staking leave alone

Voting power and liabilities are kept in tables of their own. A procedure that only updates
voting power, or only liabilities, changes nothing else, and halts only for its own reason. -/
namespace LogosCore.Ledger

variable {H : Type} [DecidableEq H] [Zero H] (cfg : Config H)

open Program

def GovernanceStore.OnlyPower (g g' : GovernanceStore H) : Prop :=
  g' = { g with votingPower := g'.votingPower,votingPowerFallback := g'.votingPowerFallback }

def GovernanceStore.OnlyLiabilities (g g' : GovernanceStore H) : Prop :=
  g' = { g with
    masterLiabilities := g'.masterLiabilities
    repLiabilities := g'.repLiabilities
    secondaryLiabilities := g'.secondaryLiabilities }

namespace GovernanceStore.OnlyPower

theorem refl (g : GovernanceStore H) : g.OnlyPower g := rfl

theorem trans {g1 g2 g3 : GovernanceStore H} (h1 : g1.OnlyPower g2) (h2 : g2.OnlyPower g3) :
    g1.OnlyPower g3 := by
  rw [h1] at h2
  exact h2

end GovernanceStore.OnlyPower

namespace GovernanceStore.OnlyLiabilities

theorem refl (g : GovernanceStore H) : g.OnlyLiabilities g := rfl

theorem trans {g1 g2 g3 : GovernanceStore H} (h1 : g1.OnlyLiabilities g2)
    (h2 : g2.OnlyLiabilities g3) : g1.OnlyLiabilities g3 := by
  rw [h1] at h2
  exact h2

theorem stakes {g g' : GovernanceStore H} (h : g.OnlyLiabilities g') : g'.stakes = g.stakes := by
  rw [h]

theorem thawing {g g' : GovernanceStore H} (h : g.OnlyLiabilities g') : g'.thawing = g.thawing := by
  rw [h]

end GovernanceStore.OnlyLiabilities

namespace VotingPowerManager

variable {E : Halt → Prop} (hE : E .votingPower)
include hE

theorem onlyPower_handleFallback (info : VotingPowerInfo) (rep : H) (epoch : Epoch)
    (g : GovernanceStore H) :
    (handleFallback info rep epoch).wp E (fun _ g' => g.OnlyPower g') g := by
  unfold handleFallback
  simp only [wp_bind,wp_get]
  cases g.reps.lookup rep with
  | none => exact rfl
  | some repInfo =>
    refine wp_ite (fun _ => wp_bind.mpr (wp_pure.mpr (wp_ite (fun _ => rfl) fun _ => rfl)))
      fun _ => ?_
    split
    · exact wp_bind.mpr (wp_pure.mpr (wp_ite (fun _ => rfl) fun _ => rfl))
    · exact wp_bind.mpr (wp_halt.mpr hE)

theorem onlyPower_transitionIfNecessary (info : VotingPowerInfo) (epoch : Epoch) (rep : H)
    (g : GovernanceStore H) :
    (transitionIfNecessary info epoch rep).wp E (fun _ g' => g.OnlyPower g') g := by
  refine wp_ite (fun _ => ?_) fun _ => .refl g
  exact wp_bind.mpr (onlyPower_handleFallback hE info rep epoch g)

theorem onlyPower_modify (info : VotingPowerInfo) (account : H) (stakeType : StakeType)
    (op : OpType) (epoch : Epoch) (diff : Amount) (g : GovernanceStore H) :
    (modify info account stakeType op epoch diff).wp E (fun _ g' => g.OnlyPower g') g := by
  refine (onlyPower_transitionIfNecessary hE info epoch account g).bind
    fun r g' h => ?_
  refine wp_ite (fun _ => ?_) fun _ => ?_
  · refine wp_bind.mpr (wp_need (fun _ => hE) fun _ _ => ?_)
    exact wp_bind.mpr (wp_need (fun _ => hE) fun _ _ => h)
  · refine wp_bind.mpr (wp_pure.mpr ?_)
    exact wp_bind.mpr (wp_need (fun _ => hE) fun _ _ => h)

theorem onlyPower_storeOrPrune (rep : H) (info : VotingPowerInfo) (g : GovernanceStore H) :
    (storeOrPrune rep info).wp E (fun _ g' => g.OnlyPower g') g := by
  unfold storeOrPrune
  rw [wp_bind,wp_get]
  exact wp_ite (fun _ => wp_ite (fun _ => rfl) fun _ => hE) fun _ => rfl

theorem onlyPower_modifyStored (stakeType : StakeType) (op : OpType) (rep : H) (amount : Amount)
    (epoch : Epoch) (g : GovernanceStore H) :
    (modifyStored stakeType op rep amount epoch).wp E (fun _ g' => g.OnlyPower g') g := by
  unfold modifyStored
  rw [wp_bind,wp_get]
  cases g.votingPower.lookup rep with
  | none => exact hE
  | some info =>
    refine (onlyPower_modify hE ..).bind fun info' g' h => ?_
    exact (onlyPower_storeOrPrune hE rep info' g').imp fun _ _ h' => h.trans h'

theorem onlyPower_addSelfStake (rep : H) (amount : Amount) (epoch : Epoch) (g : GovernanceStore H) :
    (addSelfStake rep amount epoch).wp E (fun _ g' => g.OnlyPower g') g := by
  unfold addSelfStake
  rw [wp_bind,wp_get]
  refine (onlyPower_modify hE ..).bind fun info' g' h => ?_
  exact (onlyPower_storeOrPrune hE rep info' g').imp fun _ _ h' => h.trans h'

end VotingPowerManager

section Balances
variable {E : Halt → Prop} (hE : E .votingPower)
include hE

open VotingPowerManager

theorem AccountInfo.onlyPower_proxyChange (info : AccountInfo H) (op : OpType) (diff : Amount)
    (epoch : Epoch) (g : GovernanceStore H) :
    (info.proxyChange op diff epoch).wp E (fun _ g' => g.OnlyPower g') g := by
  refine wp_bind.mpr (wp_need (fun _ => hE) fun rep _ => ?_)
  refine wp_bind.mpr (wp_need (fun _ => hE) fun nextRep _ => ?_)
  refine wp_when g.OnlyPower (fun _ => onlyPower_modifyStored hE ..) (fun _ => .refl g)
    fun g' h => wp_ite (fun _ => ?_) fun _ => h
  refine (onlyPower_modifyStored hE ..).bind fun _ g2 h2 => ?_
  exact (onlyPower_modifyStored hE ..).imp fun _ g3 h3 => (h.trans h2).trans h3

theorem AccountInfo.wp_setBalance (info : AccountInfo H) (newBalance : Amount) (epoch : Epoch)
    (hbalance : (newBalance ≤ info.balance → info.balance - newBalance ≤ info.availableBalance) ∨
      E .balance) (g : GovernanceStore H) :
    (info.setBalance newBalance epoch).wp E (fun info' g' => g.OnlyPower g' ∧ info' = { info with
        availableBalance := info.availableBalance + (newBalance - info.balance)
        balance := newBalance } ∧
      (newBalance ≤ info.balance → info.balance - newBalance ≤ info.availableBalance)) g := by
  have hpower : (info.setBalance newBalance epoch).wp E (fun _ g' => g.OnlyPower g') g := by
    refine wp_ite (fun _ => ?_) fun hshrinks => wp_ite (fun hlt => ?_) fun _ => ?_
    · exact (info.onlyPower_proxyChange hE ..).bind fun _ _ h => h
    · refine hbalance.resolve_left fun hle => ?_
      exact BitVec.not_le.mpr hlt (hle (BitVec.not_lt.mp hshrinks))
    · exact (info.onlyPower_proxyChange hE ..).bind fun _ _ h => h
  exact hpower.and (ensures_iff.mp (info.ensures_setBalance newBalance epoch) g)

theorem AccountInfo.wp_setAvailableBalance (info : AccountInfo H) (newAvailable : Amount)
    (epoch : Epoch) (hbalance : newAvailable ≤ info.balance ∨ E .balance) (g : GovernanceStore H) :
    (info.setAvailableBalance newAvailable epoch).wp E (fun info' g' => g.OnlyPower g' ∧
      info' = { info with availableBalance := newAvailable } ∧ newAvailable ≤ info.balance) g := by
  have hexceeds : info.balance < newAvailable → E .balance := fun hlt =>
    hbalance.resolve_left (BitVec.not_le.mpr hlt)
  have hpower : (info.setAvailableBalance newAvailable epoch).wp E
      (fun _ g' => g.OnlyPower g') g := by
    refine wp_ite (fun _ => ?_) fun _ => ?_
    · exact (info.onlyPower_proxyChange hE ..).bind fun _ g' h =>
        wp_ite hexceeds fun _ => h
    · exact (info.onlyPower_proxyChange hE ..).bind fun _ g' h =>
        wp_ite hexceeds fun _ => h
  exact hpower.and (ensures_iff.mp (info.ensures_setAvailableBalance newAvailable epoch) g)

namespace StakingManager

theorem onlyPower_subtractStake (origin target : H) (amount : Amount) (epoch : Epoch)
    (g : GovernanceStore H) :
    (subtractStake origin target amount epoch).wp E (fun _ g' => g.OnlyPower g') g :=
  wp_ite (fun _ => onlyPower_modifyStored hE ..) fun _ => onlyPower_modifyStored hE ..

theorem onlyPower_addStake (origin target : H) (amount : Amount) (epoch : Epoch)
    (g : GovernanceStore H) :
    (addStake origin target amount epoch).wp E (fun _ g' => g.OnlyPower g') g :=
  wp_ite (fun _ => onlyPower_addSelfStake hE ..) fun _ => onlyPower_modifyStored hE ..

theorem onlyPower_leaveTarget (origin target : H) (amount available : Amount) (epoch : Epoch)
    (g : GovernanceStore H) :
    (leaveTarget origin target amount available epoch).wp E (fun _ g' => g.OnlyPower g') g := by
  refine (onlyPower_subtractStake hE ..).bind fun _ g' h => ?_
  refine wp_ite (fun _ => ?_) fun _ => h
  exact (onlyPower_modifyStored hE ..).imp fun _ _ h' => h.trans h'

theorem onlyPower_joinTarget (origin target : H) (amount available : Amount) (epoch : Epoch)
    (g : GovernanceStore H) :
    (joinTarget origin target amount available epoch).wp E (fun _ g' => g.OnlyPower g') g := by
  refine (onlyPower_addStake hE ..).bind fun _ g' h => ?_
  refine wp_ite (fun _ => ?_) fun _ => h
  exact (onlyPower_modifyStored hE ..).imp fun _ _ h' => h.trans h'

theorem onlyPower_beginStake (origin : H) (info : AccountInfo H) (target : H) (epoch : Epoch)
    (g : GovernanceStore H) :
    (beginStake origin info target epoch).wp E (fun _ g' => g.OnlyPower g') g := by
  unfold beginStake
  refine wp_when g.OnlyPower (fun _ => onlyPower_modifyStored hE ..) (fun _ => .refl g)
    fun g' h => ?_
  refine wp_bind.mpr (wp_need (fun _ => hE) fun rep _ => wp_ite (fun _ => ?_) fun _ => h)
  exact (onlyPower_modifyStored hE ..).imp fun _ _ h' => h.trans h'

end StakingManager
end Balances

/-- The store with a new liability, consolidated with one of the same hash. -/
def GovernanceStore.putLiability (g : GovernanceStore H) (l : Liability H) : GovernanceStore H :=
  match g.masterLiabilities.lookup (l.hash cfg) with
  | some existing => { g with
      masterLiabilities := g.masterLiabilities.insert (l.hash cfg)
        { existing with amount := existing.amount + l.amount } }
  | none => { g with
      masterLiabilities := g.masterLiabilities.insert (l.hash cfg) l
      repLiabilities :=
        g.repLiabilities.putDuplicate (cfg.rank · ≤ cfg.rank ·) l.target (l.hash cfg) }

theorem GovernanceStore.onlyLiabilities_putLiability (g : GovernanceStore H) (l : Liability H) :
    g.OnlyLiabilities (g.putLiability cfg l) := by
  unfold putLiability
  split <;> rfl

namespace LiabilityManager

variable {E : Halt → Prop}

def expireSecondary (epoch : Epoch) (hash : H) : Gov H Unit := do
  let g ← get
  match g.masterLiabilities.lookup hash with
  | none => halt .liability
  | some l => if l.expirationEpoch ≤ epoch then deleteSecondaryLiability hash

theorem pruneSecondaryLiabilities_eq (origin : H) (info : AccountInfo H) (epoch : Epoch) :
    pruneSecondaryLiabilities origin info epoch =
      (if epoch ≤ info.epochSecondaryLiabilitiesUpdated then pure info
      else do
        let g ← get
        (g.secondaryLiabilities.duplicates origin).forM (expireSecondary epoch)
        pure { info with epochSecondaryLiabilitiesUpdated := epoch }) := rfl

section Rules
variable {Q : Unit → GovernanceStore H → Prop} {g : GovernanceStore H} {hash : H}

theorem wp_store {l : Liability H} {Q : H → GovernanceStore H → Prop} :
    (store cfg l).wp E Q g ↔ Q (l.hash cfg) (g.putLiability cfg l) := by
  unfold store GovernanceStore.putLiability
  rw [wp_bind,wp_get]
  dsimp only
  cases g.masterLiabilities.lookup (l.hash cfg) with
  | some existing => rfl
  | none => rfl

variable (hnone : g.masterLiabilities.lookup hash = none → E .liability)
include hnone

theorem wp_updateLiabilityAmount {amount : Amount}
    (hsome : ∀ l,g.masterLiabilities.lookup hash = some l →
      Q () { g with masterLiabilities := g.masterLiabilities.insert hash { l with amount := amount } }) :
    (updateLiabilityAmount hash amount).wp E Q g := by
  unfold updateLiabilityAmount
  rw [wp_bind,wp_get]
  split
  · next h => exact hnone h
  · next l h => exact hsome l h

theorem wp_deleteLiability (hunlisted : ∀ l,g.masterLiabilities.lookup hash = some l →
      hash ∉ g.repLiabilities.duplicates l.target → E .liability)
    (hsome : ∀ l,g.masterLiabilities.lookup hash = some l → Q () { g with
        masterLiabilities := g.masterLiabilities.erase hash
        repLiabilities := g.repLiabilities.eraseDuplicate l.target hash }) :
    (deleteLiability hash).wp E Q g := by
  unfold deleteLiability
  rw [wp_bind,wp_get]
  split
  · next h => exact hnone h
  · next l h => exact wp_ite (fun _ => hsome l h) fun hmem => hunlisted l h hmem

theorem wp_deleteSecondaryLiability (hunlisted : ∀ l,g.masterLiabilities.lookup hash = some l →
      hash ∉ g.secondaryLiabilities.duplicates l.source → E .liability)
    (hsome : ∀ l,g.masterLiabilities.lookup hash = some l →
      hash ∈ g.secondaryLiabilities.duplicates l.source →
      Q () { g with
        masterLiabilities := g.masterLiabilities.erase hash
        secondaryLiabilities := g.secondaryLiabilities.eraseDuplicate l.source hash }) :
    (deleteSecondaryLiability hash).wp E Q g := by
  unfold deleteSecondaryLiability
  rw [wp_bind,wp_get]
  split
  · next h => exact hnone h
  · next l h => exact wp_ite (fun hmem => hsome l h hmem) fun hmem => hunlisted l h hmem

end Rules

variable (hE : E .liability)
include hE

theorem onlyLiabilities_updateLiabilityAmount (hash : H) (amount : Amount) (g : GovernanceStore H) :
    (updateLiabilityAmount hash amount).wp E (fun _ g' => g.OnlyLiabilities g') g :=
  wp_updateLiabilityAmount (fun _ => hE) fun _ _ => rfl

theorem onlyLiabilities_deleteLiability (hash : H) (g : GovernanceStore H) :
    (deleteLiability hash).wp E (fun _ g' => g.OnlyLiabilities g') g :=
  wp_deleteLiability (fun _ => hE) (fun _ _ _ => hE) fun _ _ => rfl

theorem onlyLiabilities_deleteSecondaryLiability (hash : H) (g : GovernanceStore H) :
    (deleteSecondaryLiability hash).wp E (fun _ g' => g.OnlyLiabilities g') g :=
  wp_deleteSecondaryLiability (fun _ => hE) (fun _ _ _ => hE) fun _ _ _ => rfl

theorem onlyLiabilities_pruneSecondaryLiabilities (origin : H) (info : AccountInfo H)
    (epoch : Epoch) (g : GovernanceStore H) :
    (pruneSecondaryLiabilities origin info epoch).wp E (fun info' g' => g.OnlyLiabilities g' ∧
      info' = { info with
        epochSecondaryLiabilitiesUpdated := info'.epochSecondaryLiabilitiesUpdated }) g := by
  rw [pruneSecondaryLiabilities_eq]
  refine wp_ite (fun _ => ⟨.refl g,rfl⟩) fun _ => ?_
  rw [wp_bind,wp_get,wp_bind]
  refine (wp_forM (I := g.OnlyLiabilities) (fun hash _ g' h => ?_) (.refl g)).imp
    fun _ g' h => ⟨h,rfl⟩
  unfold expireSecondary
  rw [wp_bind,wp_get]
  cases g'.masterLiabilities.lookup hash with
  | none => exact hE
  | some l =>
    refine wp_ite (fun _ => ?_) fun _ => h
    exact (onlyLiabilities_deleteSecondaryLiability hE hash g').imp fun _ _ h' => h.trans h'

theorem onlyLiabilities_createSecondaryLiability (hother : E .other) (target source : H)
    (amount : Amount) (expiration : Epoch) (info : AccountInfo H) (epoch : Epoch)
    (g : GovernanceStore H) :
    (createSecondaryLiability cfg target source amount expiration info epoch).wp E
      (fun r g' => g.OnlyLiabilities g' ∧ r.2 = { info with
        epochSecondaryLiabilitiesUpdated := r.2.epochSecondaryLiabilitiesUpdated }) g := by
  refine wp_ite (fun _ => hother) fun _ => ?_
  refine (onlyLiabilities_pruneSecondaryLiabilities hE ..).bind fun info' g1 h => ?_
  rw [wp_bind,wp_get]
  refine wp_bind.mpr (wp_need (fun _ => hE) fun created _ => wp_ite (fun _ => ?_) fun _ => h)
  refine wp_bind.mpr ((wp_store cfg).mpr ?_)
  exact ⟨(h.1.trans (g1.onlyLiabilities_putLiability cfg _)).trans rfl,h.2⟩

end LiabilityManager

end LogosCore.Ledger
