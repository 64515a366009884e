import LogosCore.PowerTracking

/-! # The voting power behind a stake

Setting the stake of an account replaces its share: the old target and the old representative
lose what the account contributed, the new target gets the stake and the available balance
that remains. -/
namespace LogosCore.Ledger

variable {H : Type} [DecidableEq H] [Zero H] {cfg : Config H}

open Program VotingPowerManager StakingManager LiabilityManager
open BitVec (le_refl le_zero_iff not_lt)

namespace Tracking

variable {k : Tracking H} {E : Halt → Prop} {st : Option (StakedFunds H)} {V : Shares H}
  {g g' : GovernanceStore H} {info : AccountInfo H} {f : StakedFunds H} {target : H}
  {amountLeft : Amount}

theorem tracked_changeTarget (hE : k.Permits E) {newTarget : H}
    (h : k.Tracked (some f) (shares k.account f.target f.amount.toNat (repOf k.account f.target)
      info.availableBalance.toNat) g)
    (hleave : k.safe → f.target ≠ 0 ∧ (f.amount ≠ 0 ∨ f.target ∈ k.reps) ∧
      (f.target = k.account ∨ f.target ∈ k.reps ∨ info.availableBalance ≠ 0))
    (hjoin : k.safe → newTarget ≠ 0 ∧ newTarget ∈ k.reps ∧ amountLeft.toNat ≤ k.limit ∧
      info.availableBalance.toNat ≤ k.limit) :
    (changeTarget cfg k.account info k.epoch f newTarget amountLeft).wp E (fun r g' =>
      SecondaryUpdated info r.2.2 ∧ r.1.target = newTarget ∧ r.1.amount + r.2.1 = amountLeft ∧
      r.1.amount ≤ amountLeft ∧ ∃ st',k.Tracked st' (shares k.account newTarget r.1.amount.toNat
        (repOf k.account newTarget) info.availableBalance.toNat) g') g := by
  refine (tracked_leaveTarget hE h fun hs => ?_).bind fun _ g1 h1 => ?_
  · obtain ⟨hne,hrecord,hkept⟩ := hleave hs
    obtain ⟨-,-,-,hlimit⟩ := hjoin hs
    exact ⟨hne,hrecord,by omega,hlimit,hkept⟩
  rw [wp_bind,wp_createStakedFunds,wp_bind]
  have hextract : (extract cfg f.target f.amount 0 (updateStaked f k.account) newTarget amountLeft
      k.account info k.epoch).wp E (fun r g' => SecondaryUpdated info r.2 ∧ r.1 ≤ amountLeft ∧
        ∃ st',k.Tracked st' 0 g' ∧ (0 < f.amount - r.1 →
          st' = some { f with amount := f.amount - r.1 }))
      (g1.putLiability cfg ⟨newTarget,k.account,0,0,false⟩) := by
    refine tracked_extract hE (h1.liabilities (g1.onlyLiabilities_putLiability cfg _))
      (fun info' g' h2 hinfo => ?_) fun _ info' g' h2 hinfo => ?_
    · exact (tracked_updateStaked hE h2 _).imp fun _ g3 h3 =>
        ⟨hinfo,extractable_le ..,_,h3,fun hpos => if_pos hpos⟩
    · refine ⟨hinfo,by bv_omega,_,h2,fun _ => ?_⟩
      rw [sub_zero]
  refine hextract.imp fun r g2 h2 => ?_
  obtain ⟨hinfo,hle,st2,h2,hcur⟩ := h2
  have havailable := hinfo.available
  dsimp only
  rw [zero_add]
  refine (tracked_joinTarget hE h2 fun hs => ?_).bind fun _ g3 h3 => ?_
  · obtain ⟨hne,hreps,hlimit,hlimit'⟩ := hjoin hs
    refine ⟨hne,hreps,by bv_omega,?_⟩
    rw [havailable]
    exact hlimit'
  rw [havailable] at h3
  refine (tracked_thawRest hE h3 hcur).bind fun info' g4 h4 => ?_
  exact ⟨hinfo.trans h4.1,rfl,by dsimp only; bv_omega,hle,h4.2⟩

/-- Only the available balance and the record of pruning differ, and no more is available. -/
structure Drawn (info info' : AccountInfo H) : Prop where
  newRep : info'.newRep = info.newRep
  oldRep : info'.oldRep = info.oldRep
  balance : info'.balance = info.balance
  available : info'.availableBalance ≤ info.availableBalance

theorem drawn_of_secondary {info' : AccountInfo H} (h : SecondaryUpdated info info') :
    Drawn info info' := by
  refine ⟨?_,?_,h.balance,?_⟩
  · rw [h]
  · rw [h]
  · rw [h.available]
    exact le_refl _

theorem Drawn.represented {info' : AccountInfo H} (h : Drawn info info') {epoch : Epoch}
    (hrep : info.Represented epoch) : info'.Represented epoch := by
  refine ⟨?_,?_,hrep.bounded⟩
  · rw [h.newRep,h.oldRep]
    exact hrep.fallback
  · rw [h.newRep]
    exact hrep.active

theorem Drawn.timely {info' : AccountInfo H} (h : Drawn info info') {epoch : Epoch}
    (htimely : info.Timely epoch) : info'.Timely epoch := by
  constructor
  · rw [h.newRep]
    exact htimely.newRep
  · rw [h.oldRep]
    exact htimely.oldRep

/-- What is added counts for the target at once and no longer for the representative. -/
theorem tracked_raiseStake (hE : k.Permits E)
    (h : k.Tracked st (shares k.account target f.amount.toNat info.newRep.rep
      info.availableBalance.toNat) g)
    (hrep : info.Represented k.epoch) (hsum : f.amount.toNat + amountLeft.toNat < 2 ^ 128)
    (hsafe : k.safe → 0 < amountLeft → target ≠ 0 ∧ (target ∈ k.reps ∨ target = k.account) ∧
      info.Timely k.epoch ∧
      (f.amount + amountLeft).toNat ≤ k.limit ∧ info.availableBalance.toNat ≤ k.limit ∧
      (info.newRep.rep ≠ 0 → info.newRep.rep ∈ k.reps)) :
    (raiseStake cfg k.account info f amountLeft target k.epoch).wp E (fun r g' =>
      r.1 = { f with amount := f.amount + amountLeft } ∧ Drawn info r.2 ∧
      k.Tracked st (shares k.account target (f.amount + amountLeft).toNat info.newRep.rep
        r.2.availableBalance.toNat) g') g := by
  have hadd : ((f.amount + amountLeft).toNat : ℤ) = f.amount.toNat + amountLeft.toNat := by bv_omega
  unfold raiseStake
  refine wp_ite (fun hpos => ?_) fun hzero => ?_
  · refine (tracked_addStake hE h fun hs => ?_).bind fun _ g1 h1 => ?_
    · obtain ⟨hne,hreps,-,hlimit,-,-⟩ := hsafe hs hpos
      exact ⟨hne,by omega,by omega,hreps.imp_right fun hself => ⟨hself,by bv_omega⟩⟩
    rw [← hadd] at h1
    rw [wp_bind,wp_get]
    refine (tracked_extractThawing hE h1).bind fun r g2 h2 => ?_
    obtain ⟨hinfo,hheld,htotal,hleft,h2⟩ := h2
    have havailable := hinfo.available
    have hdrawn := drawn_of_secondary hinfo
    refine wp_ite (fun _ => ?_) fun hdone => ?_
    · refine wp_ite (fun _ => hE.balance) fun hle => ?_
      have hsub := BitVec.toNat_sub_of_le (not_lt.mp hle)
      refine (tracked_setAvailableBalance hE h2 (hdrawn.represented hrep) fun hs => ?_).bind
        fun info' g3 h3 => ?_
      · obtain ⟨-,-,htimely,-,hlimit,hkept⟩ := hsafe hs hpos
        have hvalue : info.newRep.rep ≠ 0 → shares k.account target (f.amount + amountLeft).toNat
            info.newRep.rep info.availableBalance.toNat info.newRep.rep .unlockedProxy =
              info.availableBalance.toNat := fun hne => shares_unlocked hne ..
        refine ⟨hdrawn.timely htimely,fun hne => ?_,fun hne => ?_,fun hne => ?_⟩
        · rw [hdrawn.newRep] at hne ⊢
          exact h2.mem_of_reps hs (hkept hne)
        · rw [hdrawn.newRep] at hne ⊢
          rw [hvalue hne,havailable]
          omega
        · rw [hdrawn.newRep] at hne ⊢
          rw [hvalue hne,hsub,havailable]
          omega
      · obtain ⟨h3,hinfo',-⟩ := h3
        rw [hdrawn.newRep,havailable] at h3
        have heq : shares k.account target (f.amount + amountLeft).toNat info.newRep.rep
            info.availableBalance.toNat + unlocked info.newRep.rep
              ((info.availableBalance - r.2.1).toNat - info.availableBalance.toNat) =
            shares k.account target (f.amount + amountLeft).toNat info.newRep.rep
              (info.availableBalance - r.2.1).toNat := by
          unfold shares
          rw [add_assoc,← unlocked_add]
          congr 2
          omega
        rw [heq] at h3
        refine ⟨?_,?_,?_⟩
        · rw [htotal,hheld]
        · rw [hinfo']
          exact ⟨hdrawn.newRep,hdrawn.oldRep,hdrawn.balance,by
            rw [havailable] at hle ⊢
            bv_omega⟩
        · rw [hinfo',havailable]
          exact h3
    · have hdone : r.2.1 = 0 := le_zero_iff.mp (not_lt.mp hdone)
      rw [hdone,add_zero] at htotal
      refine ⟨?_,hdrawn,?_⟩
      · rw [← htotal]
        exact hheld
      · rw [havailable]
        exact h2
  · have hzero : amountLeft = 0 := le_zero_iff.mp (not_lt.mp hzero)
    rw [hzero,add_zero]
    exact ⟨rfl,⟨rfl,rfl,rfl,le_refl _⟩,h⟩

/-- An account without stake passes its available balance to its new representative. -/
theorem tracked_beginStake (hE : k.Permits E)
    (h : k.Tracked st (unlocked info.newRep.rep info.availableBalance.toNat) g)
    (hrep : info.Represented k.epoch)
    (hsafe : k.safe → target ≠ 0 ∧ (target ∈ k.reps ∨ target = k.account) ∧
      info.Timely k.epoch ∧ info.availableBalance.toNat ≤ k.limit ∧ (info.newRep.rep ≠ 0 →
        (info.newRep.rep ∈ k.reps ∨ info.availableBalance ≠ 0) ∧
        (info.newRep.rep = target → 2 * (info.availableBalance.toNat : ℤ) ≤ k.limit))) :
    (beginStake k.account info target k.epoch).wp E (fun _ g' =>
      ¬k.epoch + 1 < info.newRep.epochFirstActive →
        k.Tracked st (unlocked (repOf k.account target) info.availableBalance.toNat) g') g := by
  have hbounded := hrep.bounded
  have hself : ∀ r : H,r ≠ 0 → ∀ n : ℤ,unlocked r n r .unlockedProxy = n := by
    intro r hr n
    rw [unlocked,if_neg hr,share_apply,if_pos ⟨rfl,rfl⟩]
  unfold beginStake
  refine wp_when (k.Tracked st (unlocked info.newRep.rep info.availableBalance.toNat +
    unlocked (repOf k.account target) info.availableBalance.toNat)) (fun hne => ?_) (fun heq => ?_)
    fun g1 h1 => ?_
  · unfold repOf
    rw [if_neg hne]
    refine (tracked_modifyStored hE h (fun _ => rfl) fun hs => ?_).imp fun _ g1 h1 =>
      h1.congr fun r hr ty => ?_
    · obtain ⟨hzero,hreps,-,hlimit,hold⟩ := hsafe hs
      rw [OpType.signed_add]
      refine ⟨hzero,h.mem_of_reps hs (hreps.resolve_right hne),?_⟩
      by_cases hsame : info.newRep.rep = target
      · have hdouble := (hold (hsame ▸ hzero)).2 hsame
        rw [hsame,hself target hzero]
        exact ⟨by omega,by omega⟩
      · have hother : unlocked info.newRep.rep (info.availableBalance.toNat : ℤ) target
            .unlockedProxy = 0 := by
          unfold unlocked
          split
          · rfl
          · rw [share_apply,if_neg fun heq => hsame heq.1.symm]
        exact ⟨by omega,by omega⟩
    · simp only [Pi.add_apply,share_unlocked_eq hr,OpType.signed_add]
  · unfold repOf
    rw [if_pos (not_not.mp heq),unlocked_none,add_zero]
    exact h
  refine wp_bind.mpr (wp_need (fun hnone => ?_) fun rep hgetRep => ?_)
  · refine hE.votingPower.resolve_left fun hs => ?_
    rw [(hrep.rep (hsafe hs).2.2.1).1] at hnone
    cases hnone
  have hcurrent : ¬k.epoch + 1 < info.newRep.epochFirstActive → rep = info.newRep.rep := by
    intro hactive
    by_cases hzero : info.newRep.rep = 0
    · rw [hzero,hrep.eq_zero hzero hgetRep]
    · unfold AccountInfo.getRepForEpoch at hgetRep
      rw [if_pos ⟨hzero,not_lt.mp hactive⟩] at hgetRep
      exact (Option.some.inj hgetRep).symm
  refine wp_ite (fun hne => ?_) fun hzero hactive => ?_
  · refine (tracked_modifyStored hE h1 (fun _ => rfl) fun hs => ?_).imp fun _ g2 h2 hactive =>
      h2.congr fun r hr ty => ?_
    · obtain ⟨-,-,htimely,hlimit,hold⟩ := hsafe hs
      have hnew := htimely.newRep
      rw [hcurrent (by bv_omega)] at hne ⊢
      obtain ⟨hkept,-⟩ := hold hne
      have hvalue : (0 : ℤ) ≤ unlocked (repOf k.account target) info.availableBalance.toNat
          info.newRep.rep .unlockedProxy ∧ unlocked (repOf k.account target)
            info.availableBalance.toNat info.newRep.rep .unlockedProxy ≤ k.limit := by
        unfold unlocked
        split
        · exact ⟨Int.le_refl 0,by simp only [Pi.zero_apply]; omega⟩
        · rw [share_apply]
          split <;> exact ⟨by omega,by omega⟩
      have hold : (unlocked info.newRep.rep (info.availableBalance.toNat : ℤ) +
          unlocked (repOf k.account target) info.availableBalance.toNat) info.newRep.rep
            .unlockedProxy = info.availableBalance.toNat + unlocked (repOf k.account target)
              info.availableBalance.toNat info.newRep.rep .unlockedProxy := by
        simp only [Pi.add_apply,hself _ hne]
      rw [OpType.signed_subtract,hold]
      refine ⟨hne,?_,by omega,by omega⟩
      rcases hkept with hreps | havailable
      · exact h1.mem_of_reps hs hreps
      · refine h1.mem_votingPower (hE.sound hs) hne .unlockedProxy ?_
        bv_omega
    · have hcancel := congrFun (congrFun (unlocked_add info.newRep.rep
        info.availableBalance.toNat (-info.availableBalance.toNat)) r) ty
      rw [add_neg_cancel,unlocked_zero] at hcancel
      rw [hcurrent hactive]
      simp only [Pi.add_apply,Pi.zero_apply,share_unlocked_eq hr,OpType.signed_subtract]
        at hcancel ⊢
      omega
  · rw [← hcurrent hactive,not_not.mp hzero,unlocked_none,zero_add] at h1
    exact h1

/-- Whether the stake is as requested; a stake of nothing is not recorded. -/
structure Fixed (st : Option (StakedFunds H)) (amount : Amount) (target : H) : Prop where
  held : ∀ f ∈ st,f.target = target ∧ f.amount = amount ∧ amount ≠ 0
  absent : st = none → amount = 0

theorem Fixed.shares_eq {amount : Amount} (h : Fixed st amount target) (a rep : H) (available : ℤ) :
    shares a target amount.toNat rep available = stakeShares a st + unlocked rep available := by
  cases st with
  | none =>
    rw [h.absent rfl]
    unfold shares stakeShares
    simp
  | some f =>
    obtain ⟨rfl,rfl,-⟩ := h.held f rfl
    rfl

/-- The representative goes with the target, and is in force in the next epoch. -/
structure StakeOutcome (k : Tracking H) (info : AccountInfo H) (amount : Amount) (target : H)
    (info' : AccountInfo H) (g' : GovernanceStore H) : Prop where
  tracked : ∃ st',Fixed st' amount target ∧
    k.Tracked st' (stakeShares k.account st' + unlocked info'.newRep.rep
      info'.availableBalance.toNat) g'
  rep : info'.newRep.rep = repOf k.account target
  represented : info'.Represented k.epoch
  newRep : info'.newRep.epochFirstActive.toNat ≤
    max info.newRep.epochFirstActive.toNat (k.epoch.toNat + 1)
  oldRep : info'.oldRep.epochFirstActive.toNat ≤
    max info.oldRep.epochFirstActive.toNat info.newRep.epochFirstActive.toNat
  balance : info'.balance = info.balance
  available : info'.availableBalance ≤ info.availableBalance

theorem tracked_completeStake (hE : k.Permits E)
    (h : ¬k.epoch + 1 < info.newRep.epochFirstActive → k.Tracked st (shares k.account target
      f.amount.toNat (repOf k.account target) info.availableBalance.toNat) g)
    (hrep : info.Represented k.epoch) (hself : repOf k.account target = 0 → info.newRep.rep = 0)
    (htarget : f.target = target) (hsum : f.amount.toNat + amountLeft.toNat < 2 ^ 128)
    (hnone : f.amount + amountLeft = 0 → st = none)
    (hsafe : k.safe → info.Timely k.epoch ∧ (0 < amountLeft → target ≠ 0 ∧
      (target ∈ k.reps ∨ target = k.account) ∧ (f.amount + amountLeft).toNat ≤ k.limit ∧
      info.availableBalance.toNat ≤ k.limit)) :
    (completeStake cfg k.account info f amountLeft target k.epoch).wp E
      (k.StakeOutcome info (f.amount + amountLeft) target) g := by
  have hbounded := hrep.bounded
  refine wp_bind.mpr (wp_need (fun _ => hE.other) fun info1 hupdate => ?_)
  unfold updateRep at hupdate
  split at hupdate
  · cases hupdate
  next hactive =>
  have hinfo := (Option.some.inj hupdate).symm
  have hnew : info1.newRep = ⟨repOf k.account target,k.epoch + 1⟩ := by rw [hinfo]; rfl
  have hold : info1.oldRep = if info.newRep.epochFirstActive < k.epoch + 1 then info.newRep
      else info.oldRep := by rw [hinfo]
  have hrep1 : info1.Represented k.epoch := by
    refine ⟨fun hzero => ?_,?_,hbounded⟩
    · rw [hnew] at hzero
      rw [hold]
      split
      · exact hself hzero
      · exact hrep.fallback (hself hzero)
    · rw [hnew]
      dsimp only
      bv_omega
  have holdRep : info1.oldRep.epochFirstActive.toNat ≤
      max info.oldRep.epochFirstActive.toNat info.newRep.epochFirstActive.toNat := by
    rw [hold]
    split
    · exact Nat.le_max_right ..
    · exact Nat.le_max_left ..
  have h1 : k.Tracked st (shares k.account target f.amount.toNat info1.newRep.rep
      info1.availableBalance.toNat) g := by
    rw [hnew,hinfo]
    exact h hactive
  refine (tracked_raiseStake hE h1 hrep1 hsum fun hs hpos => ?_).bind fun r g2 h2 => ?_
  · obtain ⟨htimely,hraise⟩ := hsafe hs
    obtain ⟨hne,hreps,hlimit,havailable⟩ := hraise hpos
    refine ⟨hne,hreps,⟨?_,?_⟩,hlimit,?_,fun hrepNe => ?_⟩
    · rw [hnew]
      dsimp only
      bv_omega
    · have htimelyNew := htimely.newRep
      have htimelyOld := htimely.oldRep
      omega
    · rw [hinfo]
      exact havailable
    · rw [hnew] at hrepNe ⊢
      unfold repOf at hrepNe ⊢
      split at hrepNe
      · exact absurd rfl hrepNe
      · next hneSelf =>
        rw [if_neg hneSelf]
        exact hreps.resolve_right hneSelf
  · obtain ⟨hr,hdrawn,h2⟩ := h2
    have houtcome : ∀ st' g',Fixed st' (f.amount + amountLeft) target →
        k.Tracked st' (shares k.account target (f.amount + amountLeft).toNat info1.newRep.rep
          r.2.availableBalance.toNat) g' →
        k.StakeOutcome info (f.amount + amountLeft) target r.2 g' := by
      intro st' g' hfixed h'
      refine ⟨⟨st',hfixed,?_⟩,?_,?_,?_,?_,?_,?_⟩
      · rw [hdrawn.newRep,← hfixed.shares_eq]
        exact h'
      · rw [hdrawn.newRep,hnew]
      · exact hdrawn.represented hrep1
      · rw [hdrawn.newRep,hnew]
        dsimp only
        bv_omega
      · rw [hdrawn.oldRep]
        exact holdRep
      · rw [hdrawn.balance,hinfo]
      · have havailable := hdrawn.available
        rw [hinfo] at havailable
        exact havailable
    refine wp_when (fun g' => ∃ st',Fixed st' (f.amount + amountLeft) target ∧
      k.Tracked st' (shares k.account target (f.amount + amountLeft).toNat info1.newRep.rep
        r.2.availableBalance.toNat) g') (fun hne => ?_) (fun hzero => ?_) fun g' h' => ?_
    · refine (tracked_storeStaked hE h2).imp fun _ g3 h3 => ⟨_,?_,h3⟩
      rw [hr] at hne ⊢
      refine ⟨fun f' hf' => ?_,fun habsent => by cases habsent⟩
      cases hf'
      exact ⟨htarget,rfl,hne⟩
    · have hzero : f.amount + amountLeft = 0 := by
        rw [hr] at hzero
        exact not_not.mp hzero
      refine ⟨st,⟨fun f' hf' => ?_,fun _ => hzero⟩,h2⟩
      rw [hnone hzero] at hf'
      cases hf'
    · obtain ⟨st',hfixed,h'⟩ := h'
      exact houtcome st' g' hfixed h'

/-- What must hold for a stake to be set without a halt in voting power. -/
structure StakeSafe (k : Tracking H) (st : Option (StakedFunds H)) (info : AccountInfo H)
    (amount : Amount) (target : H) : Prop where
  timely : info.Timely k.epoch
  target_ne : target ≠ 0
  registered : target ∈ k.reps ∨ target = k.account ∧ (∀ f ∈ st,f.target = target) ∨
    ∃ f ∈ st,f.target = target ∧ amount ≤ f.amount
  staked : ∀ f ∈ st,f.target ≠ 0
  kept : ∀ f ∈ st,f.target ≠ target → f.target = k.account ∨ f.target ∈ k.reps ∨
    info.availableBalance ≠ 0
  amount_le : amount.toNat ≤ k.limit
  available_le : info.availableBalance.toNat ≤ k.limit
  proxied : st = none → info.newRep.rep ≠ 0 →
    (info.newRep.rep ∈ k.reps ∨ info.availableBalance ≠ 0) ∧
    (info.newRep.rep = target → 2 * (info.availableBalance.toNat : ℤ) ≤ k.limit)

theorem StakeSafe.registered_of_more {amount : Amount} (h : k.StakeSafe st info amount target)
    (hmore : ∀ f ∈ st,¬amount ≤ f.amount) : target ∈ k.reps ∨ target = k.account := by
  rcases h.registered with hreps | hown | ⟨f,hf,-,hle⟩
  · exact .inl hreps
  · exact .inr hown.1
  · exact absurd hle (hmore f hf)

theorem tracked_stake (hE : k.Permits E) {amount : Amount}
    (h : k.Tracked st (stakeShares k.account st + unlocked info.newRep.rep
      info.availableBalance.toNat) g)
    (hcur : ∀ f ∈ st,f.amount ≠ 0 ∧ info.newRep.rep = repOf k.account f.target)
    (hrep : info.Represented k.epoch) (hself : repOf k.account target = 0 → info.newRep.rep = 0)
    (hzero : amount = 0 → ∀ f ∈ st,f.target = target)
    (hsafe : k.safe → k.StakeSafe st info amount target) :
    (stake cfg k.account info amount target k.epoch).wp E (k.StakeOutcome info amount target) g := by
  unfold stake
  rw [wp_bind,wp_get,h.lookup_self]
  cases st with
  | some f =>
    have hshares : stakeShares k.account (some f) + unlocked info.newRep.rep
        info.availableBalance.toNat = shares k.account f.target f.amount.toNat
          (repOf k.account f.target) info.availableBalance.toNat := by
      rw [← (hcur f rfl).2]
      rfl
    rw [hshares] at h
    refine wp_ite (fun hne => ?_) fun heq => wp_ite (fun hless => ?_) fun hmore => ?_
    · -- the stake is redirected, and what is missing is added to it
      have hamount : amount ≠ 0 := fun hamount => hne (hzero hamount f rfl).symm
      have hregistered : k.safe → target ∈ k.reps := by
        intro hs
        rcases (hsafe hs).registered with hreps | hown | hreduce
        · exact hreps
        · exact absurd (hown.2 f rfl).symm hne
        · obtain ⟨f',hf',htarget,-⟩ := hreduce
          cases hf'
          exact absurd htarget.symm hne
      refine (tracked_changeTarget hE h (fun hs => ?_) fun hs => ?_).bind fun r g1 h1 => ?_
      · exact ⟨(hsafe hs).staked f rfl,.inl (hcur f rfl).1,(hsafe hs).kept f rfl (Ne.symm hne)⟩
      · exact ⟨(hsafe hs).target_ne,hregistered hs,(hsafe hs).amount_le,(hsafe hs).available_le⟩
      · obtain ⟨hinfo,htarget,htotal,hle,st1,h1⟩ := h1
        have hdrawn := drawn_of_secondary hinfo
        have havailable := hinfo.available
        have hsum : r.1.amount.toNat + r.2.1.toNat < 2 ^ 128 := by bv_omega
        dsimp only
        rw [if_neg hamount]
        rw [← havailable] at h1
        refine (tracked_completeStake hE (fun _ => h1) (hdrawn.represented hrep) ?_ htarget hsum ?_
          fun hs => ?_).imp fun info' g2 h2 => ?_
        · rw [hdrawn.newRep]
          exact hself
        · rw [htotal]
          exact fun hamount' => absurd hamount' hamount
        · have hsafe := hsafe hs
          refine ⟨hdrawn.timely hsafe.timely,fun _ => ⟨hsafe.target_ne,.inl (hregistered hs),?_,?_⟩⟩
          · rw [htotal]
            exact hsafe.amount_le
          · rw [havailable]
            exact hsafe.available_le
        · rw [htotal] at h2
          obtain ⟨htracked,hrep',hrepresented,hnewRep,holdRep,hbalance,havail⟩ := h2
          rw [hdrawn.newRep] at hnewRep holdRep
          rw [hdrawn.oldRep] at holdRep
          exact ⟨htracked,hrep',hrepresented,hnewRep,holdRep,hbalance.trans hdrawn.balance,
            havailable ▸ havail⟩
    · -- less stake: the rest begins to thaw
      have heq := not_not.mp heq
      have hstaked : ((f.amount.toNat : ℤ)) = amount.toNat + (f.amount - amount).toNat := by
        bv_omega
      have hthaw : f.amount - (f.amount - amount) = amount := by bv_omega
      rw [hstaked] at h
      refine (tracked_subtractStake hE h fun hs => ?_).bind fun _ g1 h1 => ?_
      · have hne := (hsafe hs).staked f rfl
        refine ⟨hne,h.mem_votingPower (hE.sound hs) hne (stakeType k.account f.target) ?_,by omega,
          (hsafe hs).amount_le⟩
        rw [shares_stake]
        bv_omega
      · refine (tracked_beginThawing hE h1 (by bv_omega)).imp fun info' g2 h2 => ?_
        obtain ⟨hinfo,h2⟩ := h2
        have hdrawn := drawn_of_secondary hinfo
        rw [hthaw] at h2
        have hfixed : Fixed (if 0 < amount then some { f with amount := amount } else none) amount
            target := by
          refine ⟨fun f' hf' => ?_,fun hnone => ?_⟩
          · split at hf'
            · next hpos =>
              cases hf'
              exact ⟨heq.symm,rfl,by bv_omega⟩
            · cases hf'
          · split at hnone
            · cases hnone
            · next hpos => exact le_zero_iff.mp (not_lt.mp hpos)
        refine ⟨⟨_,hfixed,?_⟩,?_,hdrawn.represented hrep,?_,?_,hdrawn.balance,hdrawn.available⟩
        · rw [← hfixed.shares_eq,hdrawn.newRep,hinfo.available,(hcur f rfl).2,heq]
          exact h2
        · rw [hdrawn.newRep,(hcur f rfl).2,heq]
        · rw [hdrawn.newRep]
          exact Nat.le_max_left ..
        · rw [hdrawn.oldRep]
          exact Nat.le_max_left ..
    · have heq := not_not.mp heq
      have htotal : f.amount + (amount - f.amount) = amount := by bv_omega
      rw [← heq] at h
      have hcomplete : (completeStake cfg k.account info f (amount - f.amount) target k.epoch).wp E
          (k.StakeOutcome info (f.amount + (amount - f.amount)) target) g := by
        refine tracked_completeStake hE (fun _ => h) hrep hself heq.symm (by bv_omega) ?_ fun hs => ?_
        · intro hamount
          exact absurd (by bv_omega) (hcur f rfl).1
        · have hsafe := hsafe hs
          refine ⟨hsafe.timely,fun hpos => ⟨hsafe.target_ne,?_,?_,hsafe.available_le⟩⟩
          · refine hsafe.registered_of_more fun f' hf' => ?_
            cases hf'
            bv_omega
          · rw [htotal]
            exact hsafe.amount_le
      rw [htotal] at hcomplete
      exact hcomplete
  | none =>
    have hstart : k.Tracked none (unlocked info.newRep.rep info.availableBalance.toNat)
        (g.putLiability cfg ⟨target,k.account,0,0,false⟩) := by
      have hl := h.liabilities (g.onlyLiabilities_putLiability cfg ⟨target,k.account,0,0,false⟩)
      unfold stakeShares at hl
      rw [Option.elim_none,zero_add] at hl
      exact hl
    rw [wp_bind,wp_createStakedFunds]
    refine (tracked_beginStake hE hstart hrep fun hs => ?_).bind fun _ g1 h1 => ?_
    · have hsafe := hsafe hs
      exact ⟨hsafe.target_ne,hsafe.registered_of_more (by simp),hsafe.timely,hsafe.available_le,
        hsafe.proxied rfl⟩
    · have h1 : ¬k.epoch + 1 < info.newRep.epochFirstActive → k.Tracked none (shares k.account target
          ((0 : Amount).toNat : ℤ) (repOf k.account target) info.availableBalance.toNat) g1 := by
        intro hactive
        have hzero : ((0 : Amount).toNat : ℤ) = 0 := rfl
        unfold shares
        rw [hzero,share_zero,zero_add]
        exact h1 hactive
      have hcomplete : (completeStake cfg k.account info ⟨target,0,fundsHash cfg target k.account 0⟩
          amount target k.epoch).wp E (k.StakeOutcome info (0 + amount) target) g1 := by
        refine tracked_completeStake hE h1 hrep hself rfl ?_ (fun _ => rfl) fun hs => ?_
        · bv_omega
        · have hsafe := hsafe hs
          refine ⟨hsafe.timely,fun _ => ⟨hsafe.target_ne,hsafe.registered_of_more (by simp),?_,
            hsafe.available_le⟩⟩
          rw [zero_add]
          exact hsafe.amount_le
      rw [zero_add] at hcomplete
      exact hcomplete

theorem unlocked_shift (V : Shares H) (rep : H) (m n : ℤ) :
    V + unlocked rep m + unlocked rep (n - m) = V + unlocked rep n := by
  rw [add_assoc,← unlocked_add]
  congr 2
  omega

section Funds

variable {S : Shares H}

/-- Funds whose thawing is over become available. -/
theorem tracked_pruneThawing (hE : k.Permits E)
    (h : k.Tracked st (S + unlocked info.newRep.rep info.availableBalance.toNat) g)
    (hrep : info.Represented k.epoch) (hsafe : k.safe → ¬k.epoch ≤ info.epochThawingUpdated →
      k.Serves (S + unlocked info.newRep.rep info.availableBalance.toNat) info
        ((info.availableBalance + pruneableAmount (g.thawing.duplicates k.account) k.epoch).toNat -
          info.availableBalance.toNat) g) :
    (pruneThawing k.account info k.epoch).wp E (fun info' g' =>
      info'.newRep = info.newRep ∧ info'.oldRep = info.oldRep ∧
      k.Tracked st (S + unlocked info.newRep.rep info'.availableBalance.toNat) g') g := by
  refine wp_ite (fun _ => ⟨rfl,rfl,h⟩) fun hdue => ?_
  rw [wp_bind,wp_get,wp_bind,wp_set]
  have hrep1 : ({ info with epochThawingUpdated := k.epoch } : AccountInfo H).Represented k.epoch :=
    ⟨hrep.fallback,hrep.active,hrep.bounded⟩
  refine (tracked_setAvailableBalance hE (h.setThawing _) hrep1 fun hs => ?_).imp
    fun info' g1 h1 => ?_
  · have hserves := hsafe hs hdue
    exact ⟨⟨hserves.timely.newRep,hserves.timely.oldRep⟩,hserves.recorded,hserves.low,hserves.high⟩
  · obtain ⟨h1,hinfo,-⟩ := h1
    rw [unlocked_shift] at h1
    rw [hinfo]
    exact ⟨rfl,rfl,h1⟩

theorem tracked_redate (hE : k.Permits E) (h : k.Tracked st V g) {expiration : Epoch}
    {marked stops : ThawingFunds H → Bool} :
    (redate cfg k.account expiration marked stops).wp E (fun _ => k.Tracked st V) g := by
  have hloop : ∀ (ts : List (ThawingFunds H)) g,k.Tracked st V g →
      (redateLoop cfg k.account expiration marked stops ts).wp E (fun _ => k.Tracked st V) g := by
    intro ts
    induction ts with
    | nil => exact fun g h => h
    | cons t ts ih =>
      intro g h
      refine wp_ite (fun _ => ?_) fun _ => wp_ite (fun _ => h) fun _ => ih g h
      refine (onlyLiabilities_deleteLiability hE.liability ..).bind fun _ g1 h1 => ?_
      rw [wp_bind,wp_store,wp_bind,wp_modify,wp_bind]
      have h2 := (h.liabilities h1).liabilities (g1.onlyLiabilities_putLiability cfg
        ⟨t.target,k.account,t.amount,expiration,false⟩)
      exact (ih _ (h2.setThawing _)).imp fun _ _ h => h
  unfold redate
  rw [wp_bind,wp_get]
  refine (hloop _ g h).bind fun us g1 h1 => ?_
  exact wp_forM (fun _ _ _ h => tracked_storeThawing hE h) h1

end Funds

end Tracking

end LogosCore.Ledger
