import LogosCore.PowerAccounting
import LogosCore.Decomposition

/-! # Updates of voting power that do not halt

Accounts act in epochs that need not come in order, as long as the events of each account do. A
record of voting power may then be ahead of the epoch of an event, and its current power is
updated, too: it still includes what the accounts contribute that have not acted since. -/
namespace LogosCore.Ledger

variable {H : Type} [DecidableEq H] [Zero H] {cfg : Config H}

open Function Option Program Machine VotingPowerManager StakingManager LiabilityManager Tracking

theorem stakeShares_nonneg (a : H) (st : Option (StakedFunds H)) (r : H) (ty : StakeType) :
    0 ≤ stakeShares a st r ty := by
  cases st with
  | none => exact Int.le_refl 0
  | some f => exact share_nonneg (Int.natCast_nonneg _) r ty

theorem unlocked_nonneg {n : ℤ} (hn : 0 ≤ n) (rep r : H) (ty : StakeType) :
    0 ≤ unlocked rep n r ty := by
  unfold unlocked
  split
  · exact Int.le_refl 0
  · exact share_nonneg hn r ty

theorem unlocked_le {n : ℤ} (hn : 0 ≤ n) (rep r : H) (ty : StakeType) : unlocked rep n r ty ≤ n := by
  unfold unlocked
  split
  · exact hn
  · rw [share_apply]
    split
    · exact Int.le_refl n
    · exact hn

namespace Holdings

variable {s s' : Holdings H} {a r : H} {ty : StakeType}

theorem contribution_nonneg (s : Holdings H) (a r : H) (ty : StakeType) :
    0 ≤ s.contribution a r ty :=
  Int.add_nonneg (stakeShares_nonneg ..) (unlocked_nonneg (Int.natCast_nonneg _) ..)

theorem contributions_mono (s : Holdings H) {counted counted' : H → Bool}
    (h : ∀ b,counted b = true → counted' b = true) (r : H) (ty : StakeType) :
    s.contributions counted r ty ≤ s.contributions counted' r ty := by
  have hpoint : ∀ (b : H) (V : Shares H),0 ≤ V r ty →
      (if counted b then V else 0) r ty ≤ (if counted' b then V else 0) r ty := by
    intro b V hV
    by_cases hb : counted b = true
    · rw [if_pos hb,if_pos (h b hb)]
    · rw [if_neg hb]
      split
      · exact hV
      · exact Int.le_refl 0
  simp only [contributions,Pi.add_apply,total_apply]
  refine Int.add_le_add (Table.total_le_total fun b f => ?_) (Table.total_le_total fun b i => ?_)
  · exact hpoint b _ (stakeShares_nonneg ..)
  · exact hpoint b _ (unlocked_nonneg (Int.natCast_nonneg _) ..)

theorem contributions_nonneg (s : Holdings H) (counted : H → Bool) (r : H) (ty : StakeType) :
    0 ≤ s.contributions counted r ty := by
  have hnone : s.contributions (fun _ => false) = 0 := by
    unfold contributions
    rw [Table.total_eq_zero fun _ _ => if_neg Bool.false_ne_true,
      Table.total_eq_zero fun _ _ => if_neg Bool.false_ne_true,add_zero]
  have hmono : s.contributions (fun _ => false) r ty ≤ s.contributions counted r ty :=
    s.contributions_mono (fun _ hb => absurd hb Bool.false_ne_true) r ty
  rw [hnone] at hmono
  exact hmono

theorem contributions_without_counted {counted counted' : H → Bool}
    (h : ∀ b,b ≠ a → counted b = counted' b) :
    (s.without a).contributions counted = (s.without a).contributions counted' := by
  have hother : ∀ {V : Type} {t : Table H V} {b : H} {v : V},⟨b,v⟩ ∈ (t.erase a).entries → b ≠ a := by
    intro V t b v hmem heq
    have hlookup : (t.erase a).lookup b = some v := AList.mem_lookup_iff.mpr hmem
    rw [heq,AList.lookup_erase] at hlookup
    cases hlookup
  unfold contributions
  congr 1
  · exact Table.total_congr fun entry hmem => by rw [h entry.1 (hother hmem)]
  · exact Table.total_congr fun entry hmem => by rw [h entry.1 (hother hmem)]

def supply (s : Holdings H) : ℕ := Table.total (fun _ info => info.balance.toNat) s.accounts

theorem supply_eq (s : Holdings H) (a : H) :
    s.supply = (s.without a).supply + (s.info a).balance.toNat := by
  have hown : Table.amountAt (fun (_ : H) (info : AccountInfo H) => info.balance.toNat) s.accounts a =
      (s.info a).balance.toNat := by
    unfold Table.amountAt info
    cases s.accounts.lookup a <;> rfl
  rw [← hown]
  exact (Table.total_erase ..).symm

theorem supply_insert (s : Holdings H) (a : H) (info' : AccountInfo H) (g : GovernanceStore H) :
    (⟨s.accounts.insert a info',g⟩ : Holdings H).supply =
      (s.without a).supply + info'.balance.toNat :=
  Table.total_insert ..

def Bounded (s : Holdings H) : Prop :=
  ∀ b,stakedAmount (s.gov.stakes.lookup b) ≤ (s.info b).balance.toNat ∧
    (s.info b).availableBalance.toNat ≤ (s.info b).balance.toNat

theorem Decomposed.bounded (hs : s.Decomposed) : s.Bounded := by
  intro b
  have hsum := hs b
  exact ⟨by omega,by omega⟩

theorem Bounded.without (hs : s.Bounded) (a : H) : (s.without a).Bounded := by
  intro b
  have hb := hs b
  unfold info at hb ⊢
  unfold Holdings.without
  rw [Table.lookup_erase_ite,Table.lookup_erase_ite]
  split
  · exact ⟨Nat.le_refl _,Nat.le_refl _⟩
  · exact hb

theorem Bounded.contributions_le (hs : s.Bounded) (r : H) (ty : StakeType) :
    s.contributions (fun _ => true) r ty ≤ s.supply := by
  by_cases hty : ty = .unlockedProxy
  · have hstakes : Table.total (fun a f => stakeShares a (some f) r ty) s.gov.stakes = 0 := by
      refine Table.total_eq_zero fun e _ => ?_
      simp only [stakeShares,elim_some]
      rw [share_apply,if_neg fun heq => stakeType_ne _ _ (heq.2.symm.trans hty)]
    unfold contributions supply
    simp only [if_true,Pi.add_apply,total_apply]
    rw [hstakes,zero_add,natCast_total]
    refine List.sum_le_sum fun e he => ?_
    have hinfo := info_of_mem he
    have hbound := (hs e.1).2
    rw [hinfo] at hbound
    exact Int.le_trans (unlocked_le (Int.natCast_nonneg _) ..) (Int.ofNat_le.mpr hbound)
  · rw [contributions_stake hty]
    refine Int.ofNat_le.mpr (Table.total_le_total_of_amountAt _ _ fun b => ?_)
    have hbound := (hs b).1
    unfold stakedAmount info at hbound
    unfold Table.amountAt
    cases hst : s.gov.stakes.lookup b with
    | none => exact Nat.zero_le _
    | some f =>
      rw [hst] at hbound
      simp only [map_some,getD_some] at hbound ⊢
      refine Nat.le_trans ?_ (Nat.le_trans hbound ?_)
      · split
        · exact Nat.le_refl _
        · exact Nat.zero_le _
      · cases s.accounts.lookup b with
        | none => exact Nat.le_refl _
        | some info' => exact Nat.le_refl _

end Holdings

namespace FundsEvent

/-- Targets have the records of power they need, and no sum exceeds what there is. -/
def Sustained (e : FundsEvent H) (s : Holdings H) : Prop :=
  let info := s.info e.origin
  let st := s.gov.stakes.lookup e.origin
  match e.action with
  | .stake amount target => target ≠ 0 ∧ amount ≤ info.balance ∧
    (target ∈ s.gov.reps ∨ target = e.origin ∧ (∀ f ∈ st,f.target = target) ∨
      ∃ f ∈ st,f.target = target ∧ amount ≤ f.amount) ∧
    (∀ f ∈ st,f.target ≠ target → f.target = e.origin ∨ f.target ∈ s.gov.reps ∨
      info.availableBalance ≠ 0) ∧
    (st = none → info.newRep.rep ≠ 0 → (info.newRep.rep ∈ s.gov.reps ∨ info.availableBalance ≠ 0) ∧
      (info.newRep.rep = target →
        (s.without e.origin).supply + 2 * info.availableBalance.toNat < 2 ^ 128))
  | .setBalance newBalance =>
    info.balance.toNat ≤ newBalance.toNat + info.availableBalance.toNat ∧
    (s.without e.origin).supply + newBalance.toNat < 2 ^ 128 ∧
    (info.newRep.rep ≠ 0 → info.newRep.rep ∈ s.gov.votingPower)
  | .pruneThawing => info.newRep.rep ≠ 0 → info.newRep.rep ∈ s.gov.votingPower
  | .markThawingAsFrozen _ => True
  | .setExpirationOfFrozen _ => True

instance (e : FundsEvent H) (s : Holdings H) : Decidable (e.Sustained s) :=
  match e with
  | ⟨_,_,.stake _ _⟩ => inferInstanceAs (Decidable (_ ∧ _ ∧ (_ ∨ _) ∧ _ ∧ _))
  | ⟨_,_,.setBalance _⟩ => inferInstanceAs (Decidable (_ ∧ _ ∧ _))
  | ⟨_,_,.pruneThawing⟩ => inferInstanceAs (Decidable (_ → _))
  | ⟨_,_,.markThawingAsFrozen _⟩ => isTrue trivial
  | ⟨_,_,.setExpirationOfFrozen _⟩ => isTrue trivial

/-- In a record that is ahead of the event there is room for what the account may contribute. -/
def Roomy (e : FundsEvent H) (s : Holdings H) : Prop :=
  ∀ entry ∈ s.gov.votingPower.entries,e.epoch < entry.2.epochModified →
    ∀ ty ∈ [StakeType.lockedProxy,.unlockedProxy,.selfStake],((entry.2.current.get ty).toNat : ℤ) ≤
        (s.without e.origin).supply + s.contribution e.origin entry.1 ty

instance (e : FundsEvent H) (s : Holdings H) : Decidable (e.Roomy s) :=
  inferInstanceAs (Decidable (∀ entry ∈ _,_ → ∀ ty ∈ _,_))

end FundsEvent

namespace Holdings

variable {s s' : Holdings H} {a r : H} {ty : StakeType} {last : H → Epoch} {clock : Epoch}
  {e : FundsEvent H}

/-- Records of power exist and cover the accounts that have not acted since `last`. -/
structure Poised (s : Holdings H) (last : H → Epoch) : Prop where
  tips : ∀ r,s.gov.TipStored r
  recorded : ∀ r ∈ s.gov.reps,r ∈ s.gov.votingPower
  covers : ∀ r,r ≠ 0 → ∀ v,s.gov.votingPower.lookup r = some v → ∀ ty,
    s.contributions (fun b => last b < v.epochModified) r ty ≤ (v.current.get ty).toNat
  newRep : ∀ a,(s.info a).newRep.epochFirstActive.toNat ≤ (last a).toNat + 1
  oldRep : ∀ a,(s.info a).oldRep.epochFirstActive.toNat ≤ (last a).toNat + 1
  targets : ∀ a,∀ f ∈ s.gov.stakes.lookup a,f.target ≠ 0
  supply : s.supply < 2 ^ 128

/-- The event does not halt in an update of voting power. -/
structure Steady (s : Holdings H) (e : FundsEvent H) : Prop where
  traceable : e.Traceable (s.gov.stakes.lookup e.origin) (s.info e.origin)
  searchable : e.Searchable s
  sustained : e.Sustained s
  roomy : e.Roomy s

instance (s : Holdings H) (e : FundsEvent H) : Decidable (s.Steady e) :=
  decidable_of_iff (_ ∧ _ ∧ _ ∧ _)
    ⟨fun h => ⟨h.1,h.2.1,h.2.2.1,h.2.2.2⟩,fun h => ⟨h.1,h.2,h.3,h.4⟩⟩

/-- An account can own what the others do not. -/
def limit (s : Holdings H) (a : H) : ℤ := 2 ^ 128 - 1 - (s.without a).supply

theorem permits_tracking (hd : s.Decomposed) (last : H → Epoch) (e : FundsEvent H) :
    (s.tracking e last (s.limit e.origin) True).Permits (· ≠ .votingPower) where
  sound _ := by
    refine ⟨fun m r ty => contributions_nonneg ..,fun m r ty => ?_,fun r ty => ?_⟩
    · exact contributions_mono _ (fun _ _ => rfl) r ty
    · have hle := (hd.bounded.without e.origin).contributions_le r ty
      dsimp only [tracking]
      unfold limit
      omega
  votingPower := .inl trivial
  balance := by simp
  liability := by simp
  other := by simp

theorem Poised.tracked (hp : s.Poised last) (hs : s.Accounted clock) (hroomy : e.Roomy s)
    (hlast : last e.origin ≤ e.epoch) :
    (s.tracking e last (s.limit e.origin) True).Tracked (s.gov.stakes.lookup e.origin)
      (s.contribution e.origin) s.gov := by
  refine ⟨fun c => ?_,rfl,fun r hr ty => hs.power_eq e.origin hr ty,fun _ => ?_⟩
  · split
    · next heq =>
      rw [heq]
      rfl
    · rfl
  · refine ⟨hp.tips,hp.recorded,fun r _ ty => contribution_nonneg ..,fun r hr v hv ty => ?_⟩
    have hcovers := hp.covers r hr v hv ty
    have hsplit := congrFun (congrFun (s.contributions_eq (fun b => last b < v.epochModified)
      e.origin) r) ty
    rw [hsplit] at hcovers
    have hown := s.contribution_nonneg e.origin r ty
    refine ⟨?_,fun hahead => ?_⟩
    · by_cases hahead : e.epoch < v.epochModified
      · have hbefore : last e.origin < v.epochModified := by bv_omega
        refine Int.le_trans (Int.le_of_eq ?_) hcovers
        rw [decide_eq_true hbefore,if_pos rfl]
        exact congrArg _ (if_pos hahead)
      · refine Int.le_trans (Int.le_of_eq (congrArg _ (if_neg hahead))) ?_
        rw [add_zero]
        refine Int.le_trans ?_ hcovers
        split
        · exact Int.le_add_of_nonneg_right hown
        · exact Int.le_of_eq (add_zero _).symm
    · have hroom := hroomy ⟨r,v⟩ (AList.mem_lookup_iff.mp hv) hahead ty (by cases ty <;> simp)
      have hlimit : (s.tracking e last (s.limit e.origin) True).limit =
          2 ^ 128 - 1 - ((s.without e.origin).supply : ℤ) := rfl
      dsimp only at hroom
      omega

/-- A steady event meets what an update of voting power requires. -/
theorem Poised.safe (hp : s.Poised last) (hd : s.Decomposed) (hlast : last e.origin ≤ e.epoch)
    (hsustained : e.Sustained s) :
    e.Safe (s.tracking e last (s.limit e.origin) True) (s.gov.stakes.lookup e.origin)
      (s.info e.origin) s.gov := by
  have htimely : (s.info e.origin).Timely e.epoch := by
    have hnew := hp.newRep e.origin
    have hold := hp.oldRep e.origin
    exact ⟨by bv_omega,by bv_omega⟩
  have hfunds := hd e.origin
  have hsupply := hp.supply
  rw [s.supply_eq e.origin] at hsupply
  have hvalue : (s.info e.origin).newRep.rep ≠ 0 →
      (stakeShares e.origin (s.gov.stakes.lookup e.origin) + unlocked (s.info e.origin).newRep.rep
        ((s.info e.origin).availableBalance.toNat : ℤ)) (s.info e.origin).newRep.rep .unlockedProxy =
          (s.info e.origin).availableBalance.toNat := by
    intro hne
    have hstake : stakeShares e.origin (s.gov.stakes.lookup e.origin) (s.info e.origin).newRep.rep
        .unlockedProxy = 0 := by
      unfold stakeShares
      cases s.gov.stakes.lookup e.origin with
      | none => rfl
      | some f =>
        rw [elim_some,share_apply,if_neg fun heq => stakeType_ne _ _ heq.2.symm]
    rw [Pi.add_apply,Pi.add_apply,hstake,zero_add,unlocked,if_neg hne,share_apply,if_pos ⟨rfl,rfl⟩]
  have hserves : ∀ change : ℤ,((s.info e.origin).newRep.rep ≠ 0 →
        (s.info e.origin).newRep.rep ∈ s.gov.votingPower) →
      0 ≤ (s.info e.origin).availableBalance.toNat + change →
      (s.info e.origin).availableBalance.toNat + change ≤ s.limit e.origin →
      (s.tracking e last (s.limit e.origin) True).Serves
        (stakeShares e.origin (s.gov.stakes.lookup e.origin) + unlocked (s.info e.origin).newRep.rep
          (s.info e.origin).availableBalance.toNat) (s.info e.origin) change s.gov := by
    intro change hrecorded hlow hhigh
    exact ⟨htimely,hrecorded,fun hne => by rw [hvalue hne]; exact hlow,
      fun hne => by rw [hvalue hne]; exact hhigh⟩
  have hlimit : s.limit e.origin = 2 ^ 128 - 1 - ((s.without e.origin).supply : ℤ) := rfl
  unfold FundsEvent.Safe
  unfold FundsEvent.Sustained at hsustained
  split
  · next amount target haction =>
    simp only [haction] at hsustained
    obtain ⟨hne,hamount,hregistered,hkept,hproxied⟩ := hsustained
    have hamount : amount.toNat ≤ (s.info e.origin).balance.toNat := hamount
    refine ⟨htimely,hne,hregistered,hp.targets e.origin,hkept,?_,?_,fun hnone hrep => ?_⟩
    · refine Int.le_trans ?_ (Int.le_of_eq hlimit.symm)
      omega
    · refine Int.le_trans ?_ (Int.le_of_eq hlimit.symm)
      omega
    · obtain ⟨hrecord,hdouble⟩ := hproxied hnone hrep
      refine ⟨hrecord,fun heq => Int.le_trans ?_ (Int.le_of_eq hlimit.symm)⟩
      have hdouble := hdouble heq
      omega
  · next newBalance haction =>
    simp only [haction] at hsustained
    obtain ⟨hcovered,hfits,hrecorded⟩ := hsustained
    exact hserves _ hrecorded (by omega) (by omega)
  · next haction =>
    simp only [haction] at hsustained
    intro _ _
    have hpruned := toNat_pruneableAmount (s.gov.thawing.duplicates e.origin) e.epoch (by omega)
    have hsum : ((s.info e.origin).availableBalance +
        pruneableAmount (s.gov.thawing.duplicates e.origin) e.epoch).toNat =
          (s.info e.origin).availableBalance.toNat +
            (pruneableAmount (s.gov.thawing.duplicates e.origin) e.epoch).toNat := by bv_omega
    refine hserves (((s.info e.origin).availableBalance + pruneableAmount
      (s.gov.thawing.duplicates e.origin) e.epoch).toNat -
        (s.info e.origin).availableBalance.toNat) hsustained ?_ ?_
    · rw [hsum]
      omega
    · rw [hsum]
      omega
  · trivial
  · trivial

theorem Poised.wp_perform (hp : s.Poised last) (hs : s.Accounted clock) (hd : s.Decomposed)
    (hclock : clock.toNat + 2 < 2 ^ 32) (hle : e.epoch ≤ clock) (hlast : last e.origin ≤ e.epoch)
    (hsteady : s.Steady e) :
    (e.perform cfg (s.info e.origin)).wp (· ≠ .votingPower)
      ((s.tracking e last (s.limit e.origin) True).Performed (s.gov.stakes.lookup e.origin) e.action
        (s.info e.origin)) s.gov :=
  tracked_perform (permits_tracking hd last e) rfl rfl (by bv_omega)
    (hp.tracked hs hsteady.roomy hlast) (hs.staked e.origin) (hs.fallback e.origin)
    hsteady.traceable (hs.available e.origin) fun _ => hp.safe hd hlast hsteady.sustained

theorem step_poised {o : List Empty} (hp : s.Poised last) (hs : s.Accounted clock)
    (hd : s.Decomposed) (hclock : clock.toNat + 2 < 2 ^ 32) (hle : e.epoch ≤ clock)
    (hlast : last e.origin ≤ e.epoch) (hsteady : s.Steady e) (h : s.step cfg e = some (s',o)) :
    s'.Poised (Function.update last e.origin e.epoch) := by
  obtain ⟨info',g',hrun,rfl⟩ := step_eq_some cfg h
  have hbalance := (e.balance_perform (s.info e.origin)).result hrun
  obtain ⟨⟨st',htracked,-,htargets⟩,-,hnew,hold⟩ :=
    (hp.wp_perform hs hd hclock hle hlast hsteady).run hrun
  have hready := htracked.ready trivial
  have hstaked : ∀ c,g'.stakes.lookup c =
      if c = e.origin then st' else s.gov.stakes.lookup c := htracked.staked
  have hlastNat : (last e.origin).toNat ≤ e.epoch.toNat := hlast
  refine ⟨hready.tips,hready.recorded,fun r hr v hv ty => ?_,fun c => ?_,fun c => ?_,
    fun c f hf => ?_,?_⟩
  · obtain ⟨hcovers,-⟩ := hready.covers r hr v hv ty
    rw [contributions_insert hstaked info' fun b =>
      Function.update last e.origin e.epoch b < v.epochModified]
    have hothers : (s.without e.origin).contributions (fun b =>
        Function.update last e.origin e.epoch b < v.epochModified) =
          (s.without e.origin).contributions fun b => last b < v.epochModified :=
      contributions_without_counted fun b hb => by rw [update_of_ne hb]
    refine Int.le_trans (Int.le_of_eq ?_) hcovers
    rw [hothers,update_self]
    by_cases hahead : (s.tracking e last (s.limit e.origin) True).epoch < v.epochModified
    · have hepoch : decide (e.epoch < v.epochModified) = true := decide_eq_true hahead
      rw [if_pos hahead,hepoch,if_pos rfl]
      rfl
    · have hepoch : decide (e.epoch < v.epochModified) = false := decide_eq_false hahead
      rw [if_neg hahead,hepoch,if_neg Bool.false_ne_true]
      rfl
  · rw [info_insert]
    by_cases hc : c = e.origin
    · rw [if_pos hc,hc,update_self]
      have hbefore := hp.newRep e.origin
      have hepoch : (s.tracking e last (s.limit e.origin) True).epoch.toNat = e.epoch.toNat := rfl
      omega
    · rw [if_neg hc,update_of_ne hc]
      exact hp.newRep c
  · rw [info_insert]
    by_cases hc : c = e.origin
    · rw [if_pos hc,hc,update_self]
      have hbefore := hp.newRep e.origin
      have hbefore' := hp.oldRep e.origin
      omega
    · rw [if_neg hc,update_of_ne hc]
      exact hp.oldRep c
  · rw [hstaked] at hf
    split at hf
    · rcases htargets f hf with hf | ⟨amount,haction⟩
      · exact hp.targets e.origin f hf
      · have hsustained := hsteady.sustained
        unfold FundsEvent.Sustained at hsustained
        simp only [haction] at hsustained
        exact hsustained.1
    · exact hp.targets c f hf
  · rw [supply_insert,hbalance]
    have hsupply := hp.supply
    rw [s.supply_eq e.origin] at hsupply
    split
    · next newBalance haction =>
      have hsustained := hsteady.sustained
      unfold FundsEvent.Sustained at hsustained
      simp only [haction] at hsustained
      exact hsustained.2.1
    · exact hsupply

/-- An event halts only for a reason that is not excluded. -/
theorem attempt_ne_of_wp {E : Halt → Prop} {Q : AccountInfo H → GovernanceStore H → Prop}
    {reason : Halt} (h : (e.perform cfg (s.info e.origin)).wp E Q s.gov) (hreason : ¬E reason) :
    s.attempt cfg e ≠ .error reason := by
  intro hhalt
  unfold attempt at hhalt
  cases hrun : (e.perform cfg (s.info e.origin)).run s.gov with
  | ok r =>
    rw [hrun] at hhalt
    cases hhalt
  | error reason' =>
    rw [hrun] at hhalt
    cases hhalt
    exact hreason ((wp_iff.mp h).2 _ hrun)

/-- A balance that is covered can be set, and what has thawed can be released. -/
theorem attempt_ne_balance (hd : s.Decomposed) (hsustained : e.Sustained s)
    (haction : (∃ newBalance,e.action = .setBalance newBalance) ∨ e.action = .pruneThawing) :
    s.attempt cfg e ≠ .error .balance := by
  have hfunds := hd e.origin
  have hperform : (e.perform cfg (s.info e.origin)).wp (· ≠ .balance) (fun _ _ => True) s.gov := by
    unfold FundsEvent.perform
    unfold FundsEvent.Sustained at hsustained
    rcases haction with ⟨newBalance,haction⟩ | haction
    · simp only [haction] at hsustained ⊢
      have hle : newBalance ≤ (s.info e.origin).balance →
          (s.info e.origin).balance - newBalance ≤ (s.info e.origin).availableBalance := by
        intro hshrinks
        bv_omega
      exact ((s.info e.origin).wp_setBalance (by simp) _ _ (.inl hle) _).imp fun _ _ _ => trivial
    · simp only [haction]
      unfold pruneThawing
      refine wp_ite (fun _ => trivial) fun _ => ?_
      have hpruned := toNat_pruneableAmount (s.gov.thawing.duplicates e.origin) e.epoch (by omega)
      refine (AccountInfo.wp_setAvailableBalance (by simp) _ _ _ (.inl ?_) _).imp fun _ _ _ => trivial
      dsimp only
      bv_omega
  exact attempt_ne_of_wp hperform fun hne => hne rfl

theorem registered_decomposed : registered.Decomposed := sample_decomposed

theorem registered_consolidated : registered.Consolidated := sample_consolidated

theorem registered_poised : registered.Poised fun _ => 0 := by
  have hreps : ∀ r info,registered.gov.reps.lookup r = some info → info.electionVoteTip = 0 := by
    intro r info hinfo
    have hall : ∀ entry ∈ registered.gov.reps.entries,entry.2.electionVoteTip = 0 := by decide
    exact hall ⟨r,info⟩ (AList.mem_lookup_iff.mp hinfo)
  have hzero : ∀ counted,registered.contributions counted = 0 := by
    intro counted
    unfold contributions
    have haccounts : ∀ e ∈ registered.accounts.entries,e.2.newRep.rep = 0 := by decide
    have hstakes : registered.gov.stakes = ∅ := rfl
    rw [hstakes,Table.total_empty,zero_add]
    refine Table.total_eq_zero fun e he => ?_
    rw [haccounts e he,unlocked_none,ite_self]
  have hinfo : ∀ a,(registered.info a).newRep.epochFirstActive = 0 ∧
      (registered.info a).oldRep.epochFirstActive = 0 := by
    intro a
    have hall : ∀ e ∈ registered.accounts.entries,e.2.newRep.epochFirstActive = 0 ∧
      e.2.oldRep.epochFirstActive = 0 := by decide
    unfold info
    cases hl : registered.accounts.lookup a with
    | none => exact ⟨rfl,rfl⟩
    | some info' => exact hall ⟨a,info'⟩ (AList.mem_lookup_iff.mp hl)
  refine ⟨fun r info hl => .inl (hreps r info hl),?_,fun r _ v _ ty => ?_,fun a => ?_,fun a => ?_,
    fun a f hf => ?_,by decide⟩
  · intro r hr
    have hall : ∀ key ∈ registered.gov.reps.keys,key ∈ registered.gov.votingPower := by decide
    exact hall r hr
  · rw [hzero]
    exact Int.natCast_nonneg _
  · rw [(hinfo a).1]
    exact Nat.zero_le _
  · rw [(hinfo a).2]
    exact Nat.zero_le _
  · cases hf

/-- Account 1 chooses account 2 in epoch 11, account 4 does so later in epoch 10. -/
def lateRun : List (FundsEvent ℕ) :=
  [⟨1,11,.stake 300 2⟩,⟨4,10,.setBalance 500⟩,⟨4,10,.stake 100 2⟩]

end Holdings

end LogosCore.Ledger
