import LogosCore.PowerShares
import LogosCore.Funds

/-! # Voting power while an account acts

An operation of one account changes the share of that account only. What the others contribute
is a constant base; the share of the account is followed through the operation. If the base
and the share fit, and the records that are updated exist and cover what is taken away, then
the operation does not halt in an update of voting power. -/
namespace LogosCore.Ledger

variable {H : Type} [DecidableEq H] [Zero H] {cfg : Config H}

open Program VotingPowerManager StakingManager LiabilityManager
open OpType (add signed_add signed_subtract subtract)

/-- What stays fixed while an account acts: the representatives, the stakes and shares of others,
the part of these from accounts that have not acted, and a limit to the own share; whether halts are
excluded is a parameter. -/
structure Tracking (H : Type) where
  account : H
  epoch : Epoch
  stakes : Table H (StakedFunds H)
  reps : Table H (RepInfo H)
  base : Shares H
  settled : Epoch → Shares H
  limit : ℤ
  safe : Prop

namespace Tracking

structure Sound (k : Tracking H) : Prop where
  nonneg : ∀ m r ty,0 ≤ k.settled m r ty
  settled_le : ∀ m r ty,k.settled m r ty ≤ k.base r ty
  fits : ∀ r ty,k.base r ty + k.limit < 2 ^ 128

/-- The current power includes what accounts that have not acted contribute. -/
def Covers (k : Tracking H) (V : Shares H) (rep : H) (info : VotingPowerInfo) : Prop :=
  ∀ ty,k.settled info.epochModified rep ty +
      (if k.epoch < info.epochModified then V rep ty else 0) ≤ (info.current.get ty).toNat ∧
    (k.epoch < info.epochModified → (info.current.get ty).toNat + k.limit < 2 ^ 128 + V rep ty)

structure Ready (k : Tracking H) (V : Shares H) (g : GovernanceStore H) : Prop where
  tips : ∀ r,g.TipStored r
  recorded : ∀ r ∈ g.reps,r ∈ g.votingPower
  nonneg : ∀ r,r ≠ 0 → ∀ ty,0 ≤ V r ty
  covers : ∀ r,r ≠ 0 → ∀ info,g.votingPower.lookup r = some info → k.Covers V r info

/-- The account has the given stake and contributes the given shares. -/
structure Tracked (k : Tracking H) (st : Option (StakedFunds H)) (V : Shares H)
    (g : GovernanceStore H) : Prop where
  staked : ∀ c,g.stakes.lookup c = if c = k.account then st else k.stakes.lookup c
  reps : g.reps = k.reps
  power : ∀ r,r ≠ 0 → ∀ ty,g.power r ty = k.base r ty + V r ty
  ready : k.safe → k.Ready V g

structure Permits (k : Tracking H) (E : Halt → Prop) : Prop where
  sound : k.safe → k.Sound
  votingPower : k.safe ∨ E .votingPower
  balance : E .balance
  liability : E .liability
  other : E .other

variable {k : Tracking H} {E : Halt → Prop} {st : Option (StakedFunds H)} {V : Shares H}
  {g g' : GovernanceStore H} {rep : H} {ty : StakeType} {op : OpType} {epoch : Epoch} {d : Amount}

theorem Covers.modified {info info' : VotingPowerInfo} (hk : k.Sound)
    (hV : ∀ ty,0 ≤ V rep ty) (hcovers : k.Covers V rep info)
    (hpower : ∀ ty,((info.next.get ty).toNat : ℤ) = k.base rep ty + V rep ty)
    (hm : info.Modified ty op k.epoch d info') :
    k.Covers (V + share rep ty (op.signed d)) rep info' := by
  intro ty'
  obtain ⟨hle,hroom⟩ := hcovers ty'
  have hepoch := hm.epochModified
  have hcurrent := hm.current
  simp only [Pi.add_apply,share_apply,true_and]
  by_cases hahead : k.epoch < info.epochModified
  · have hlate : ¬info.epochModified < k.epoch := BitVec.not_lt.mpr (BitVec.le_of_lt hahead)
    rw [if_pos hahead] at hcurrent hle
    rw [if_neg hlate] at hepoch
    have hget := VotingPowerSnapshot.get_of_modify hcurrent ty'
    have hroom := hroom hahead
    rw [hepoch,if_pos hahead,hget]
    exact ⟨by omega,fun _ => by omega⟩
  · rw [if_neg hahead] at hcurrent hle
    have hstill : ¬k.epoch < info'.epochModified := by
      rw [hepoch]
      split
      · exact BitVec.lt_irrefl _
      · exact hahead
    rw [if_neg hstill]
    refine ⟨?_,fun h => absurd h hstill⟩
    by_cases hbehind : info.epochModified < k.epoch
    · -- the record moves forward, and its current power becomes what was to be the next
      rw [if_pos hbehind] at hcurrent hepoch
      have hsettled := hk.settled_le info'.epochModified rep ty'
      have hV := hV ty'
      have hnext := hpower ty'
      rw [hcurrent]
      omega
    · rw [if_neg hbehind] at hcurrent hepoch
      rw [hcurrent,hepoch]
      exact hle

theorem tracked_update {info : VotingPowerInfo} (hE : k.Permits E) (h : k.Tracked st V g)
    (hpower : ∀ ty,g.power rep ty = (info.next.get ty).toNat) (hepoch : k.safe → epoch = k.epoch)
    (hsafe : k.safe → rep ≠ 0 ∧ k.Covers V rep info ∧ 0 ≤ V rep ty + op.signed d ∧
      V rep ty + op.signed d ≤ k.limit ∧ (rep ∉ g.votingPower → rep ∈ g.reps ∨ d ≠ 0 ∧ op = .add)) :
    (modify info rep ty op epoch d >>= storeOrPrune rep).wp E
      (fun _ => k.Tracked st (V + share rep ty (op.signed d))) g := by
  have hnext : k.safe → ∀ ty,((info.next.get ty).toNat : ℤ) = k.base rep ty + V rep ty :=
    fun hs ty => (hpower ty).symm.trans (h.power rep (hsafe hs).1 ty)
  refine wp_bind.mpr (wp_modify (hE.votingPower.imp_left fun hs => (h.ready hs).tips rep)
    (fun hahead hnone => ?_) (fun hnone => ?_) fun info' fallback hm => ?_)
  · refine hE.votingPower.resolve_left fun hs => ?_
    obtain ⟨-,hcovers,hlow,hhigh,-⟩ := hsafe hs
    rw [hepoch hs] at hahead
    obtain ⟨hle,hroom⟩ := hcovers ty
    have hnonneg := (hE.sound hs).nonneg info.epochModified rep ty
    have hroom := hroom hahead
    rw [if_pos hahead] at hle
    exact VotingPowerSnapshot.modify_ne_none (by omega) (by omega) hnone
  · refine hE.votingPower.resolve_left fun hs => ?_
    obtain ⟨-,-,hlow,hhigh,-⟩ := hsafe hs
    have hfits := (hE.sound hs).fits rep ty
    have hnonneg := (hE.sound hs).nonneg 0 rep ty
    have hsettled := (hE.sound hs).settled_le 0 rep ty
    have hnext := hnext hs ty
    exact VotingPowerSnapshot.modify_ne_none (by omega) (by omega) hnone
  · have hget := VotingPowerSnapshot.get_of_modify hm.next
    refine (wp_storeOrPrune fun hprune hmissing => ?_).imp fun _ g' hstored => ?_
    · -- a new record with power is not pruned
      refine hE.votingPower.resolve_left fun hs => ?_
      obtain ⟨-,-,hlow,hhigh,hkept⟩ := hsafe hs
      unfold canPrune at hprune
      simp only [Bool.and_eq_true,decide_eq_true_eq,Bool.not_eq_true',decide_eq_false_iff_not]
        at hprune
      rcases hkept hmissing with hrep | ⟨hd,rfl⟩
      · exact hprune.2 hrep
      · have hzero := hget ty
        rw [hprune.1,if_pos rfl] at hzero
        unfold OpType.signed at hzero
        simp only [VotingPowerSnapshot.get_zero] at hzero
        bv_omega
    · have hpower' : ∀ r ty',g'.power r ty' = g.power r ty' + share rep ty (op.signed d) r ty' := by
        intro r ty'
        have hstored := hstored.power r ty'
        rw [share_apply]
        by_cases hr : r = rep
        · rw [if_pos hr,hget] at hstored
          rw [hstored,hr,hpower ty']
          simp
        · rw [hstored]
          simp [hr]
          rfl
      refine ⟨fun c => ?_,hstored.only.reps.trans h.reps,fun r hr ty' => ?_,fun hs => ?_⟩
      · rw [hstored.only.stakes]
        exact h.staked c
      · rw [hpower',h.power r hr ty']
        simp only [Pi.add_apply]
        omega
      · obtain ⟨hrep,hcovers,hlow,hhigh,hkept⟩ := hsafe hs
        have hready := h.ready hs
        rw [hepoch hs] at hm
        refine ⟨fun r => ?_,fun r hr => ?_,fun r hr ty' => ?_,fun r hr info'' hl => ?_⟩
        · unfold GovernanceStore.TipStored
          rw [hstored.only.reps,hstored.only.requests]
          exact hready.tips r
        · rw [hstored.only.reps] at hr
          rw [← AList.lookup_isSome,hstored.lookup]
          split
          · next heq =>
            have hkeep : canPrune { g with votingPowerFallback := fallback } rep info' = false := by
              unfold canPrune
              rw [heq] at hr
              simp [hr]
            rw [hkeep]
            rfl
          · exact AList.lookup_isSome.mpr (hready.recorded r hr)
        · have hV := hready.nonneg r hr ty'
          simp only [Pi.add_apply,share_apply]
          split
          · next heq =>
            rw [heq.1,heq.2]
            exact hlow
          · omega
        · rw [hstored.lookup] at hl
          split at hl
          · next heq =>
            split at hl
            · cases hl
            · cases hl
              rw [heq]
              exact hcovers.modified (hE.sound hs) (hready.nonneg rep hrep) (hnext hs) hm
          · next hne =>
            have hold := hready.covers r hr info'' hl
            intro ty'
            simp only [Pi.add_apply,share_apply,hne,false_and,if_false,add_zero]
            exact hold ty'

theorem Tracked.congr {V' : Shares H} (h : k.Tracked st V g)
    (hV : ∀ r,r ≠ 0 → ∀ ty,V' r ty = V r ty) : k.Tracked st V' g := by
  refine ⟨h.staked,h.reps,fun r hr ty => ?_,fun hs => ?_⟩
  · rw [hV r hr]
    exact h.power r hr ty
  · have hready := h.ready hs
    refine ⟨hready.tips,hready.recorded,fun r hr ty => ?_,fun r hr info hl ty => ?_⟩
    · rw [hV r hr]
      exact hready.nonneg r hr ty
    · rw [hV r hr]
      exact hready.covers r hr info hl ty

/-- Where the acting account contributes there is a record. -/
theorem Tracked.mem_votingPower (h : k.Tracked st V g) (hk : k.Sound) (hrep : rep ≠ 0)
    (ty : StakeType) (hpos : 0 < V rep ty) : rep ∈ g.votingPower := by
  refine Decidable.byContradiction fun hmissing => ?_
  have hpower := h.power rep hrep ty
  rw [GovernanceStore.power_of_absent (AList.lookup_eq_none.mpr hmissing)] at hpower
  have hnonneg := hk.nonneg 0 rep ty
  have hsettled := hk.settled_le 0 rep ty
  omega

theorem Tracked.mem_of_reps (h : k.Tracked st V g) (hs : k.safe) (hrep : rep ∈ k.reps) :
    rep ∈ g.votingPower :=
  (h.ready hs).recorded rep (h.reps ▸ hrep)

theorem tracked_modifyStored (hE : k.Permits E) (h : k.Tracked st V g)
    (hepoch : k.safe → epoch = k.epoch)
    (hsafe : k.safe → rep ≠ 0 ∧ rep ∈ g.votingPower ∧ 0 ≤ V rep ty + op.signed d ∧
      V rep ty + op.signed d ≤ k.limit) :
    (modifyStored ty op rep d epoch).wp E
      (fun _ => k.Tracked st (V + share rep ty (op.signed d))) g := by
  unfold modifyStored
  rw [wp_bind,wp_get]
  cases hl : g.votingPower.lookup rep with
  | none =>
    refine hE.votingPower.resolve_left fun hs => ?_
    exact AList.lookup_eq_none.mp hl (hsafe hs).2.1
  | some info =>
    refine tracked_update hE h (GovernanceStore.power_of_lookup hl) hepoch fun hs => ?_
    obtain ⟨hrep,hmem,hlow,hhigh⟩ := hsafe hs
    exact ⟨hrep,(h.ready hs).covers rep hrep info hl,hlow,hhigh,fun hnot => absurd hmem hnot⟩

theorem tracked_addSelfStake (hE : k.Permits E) (h : k.Tracked st V g)
    (hsafe : k.safe → rep ≠ 0 ∧ V rep .selfStake + d.toNat ≤ k.limit ∧
      (rep ∈ g.votingPower ∨ rep ∈ k.reps ∨ d ≠ 0)) :
    (addSelfStake rep d k.epoch).wp E
      (fun _ => k.Tracked st (V + share rep .selfStake d.toNat)) g := by
  have hpower : ∀ ty,g.power rep ty = ((((g.votingPower.lookup rep).getD
      ⟨.zero,.zero,k.epoch⟩).next.get ty).toNat : ℤ) := by
    intro ty
    cases hl : g.votingPower.lookup rep with
    | none =>
      rw [GovernanceStore.power_of_absent hl]
      simp
    | some info => exact GovernanceStore.power_of_lookup hl ty
  refine tracked_update hE h hpower (fun _ => rfl) fun hs => ?_
  obtain ⟨hrep,hhigh,hkept⟩ := hsafe hs
  have hready := h.ready hs
  have hnonneg := hready.nonneg rep hrep
  refine ⟨hrep,?_,?_,hhigh,fun hnot => ?_⟩
  · cases hl : g.votingPower.lookup rep with
    | some info => exact hready.covers rep hrep info hl
    | none =>
      -- where there is no record nobody contributes
      intro ty
      have hzero := h.power rep hrep ty
      rw [GovernanceStore.power_of_absent hl] at hzero
      have hsettled := (hE.sound hs).settled_le k.epoch rep ty
      have hV := hnonneg ty
      simp
      omega
  · have hV := hnonneg .selfStake
    rw [signed_add]
    omega
  · rw [h.reps]
    rcases hkept with hmem | hrep | hd
    · exact absurd hmem hnot
    · exact .inl hrep
    · exact .inr ⟨hd,rfl⟩

variable (h : k.Tracked st V g)
include h

theorem Tracked.frame {st' : Option (StakedFunds H)}
    (hpower : g'.votingPower = g.votingPower) (hreps : g'.reps = g.reps)
    (hrequests : g'.requests = g.requests)
    (hstaked : ∀ c,g'.stakes.lookup c = if c = k.account then st' else k.stakes.lookup c) :
    k.Tracked st' V g' := by
  refine ⟨hstaked,hreps.trans h.reps,fun r hr ty => ?_,fun hs => ?_⟩
  · unfold GovernanceStore.power GovernanceStore.nextPower
    rw [hpower]
    exact h.power r hr ty
  · have hready := h.ready hs
    refine ⟨fun r => ?_,?_,hready.nonneg,?_⟩
    · unfold GovernanceStore.TipStored
      rw [hreps,hrequests]
      exact hready.tips r
    · rw [hreps,hpower]
      exact hready.recorded
    · rw [hpower]
      exact hready.covers

theorem Tracked.liabilities (hl : g.OnlyLiabilities g') : k.Tracked st V g' :=
  h.frame (by rw [hl]) (by rw [hl]) (by rw [hl]) (by rw [hl]; exact h.staked)

theorem Tracked.putStake (f : StakedFunds H) :
    k.Tracked (some f) V { g with stakes := g.stakes.insert k.account f } := by
  refine h.frame rfl rfl rfl fun c => ?_
  rw [Table.lookup_insert_ite,h.staked]
  split <;> rfl

theorem Tracked.dropStake : k.Tracked none V { g with stakes := g.stakes.erase k.account } := by
  refine h.frame rfl rfl rfl fun c => ?_
  rw [Table.lookup_erase_ite,h.staked]
  split <;> rfl

theorem Tracked.setThawing (t : Table H (List (ThawingFunds H))) :
    k.Tracked st V { g with thawing := t } :=
  h.frame rfl rfl rfl h.staked

theorem Tracked.lookup_self : g.stakes.lookup k.account = st := by
  rw [h.staked,if_pos rfl]

end Tracking

/-- An available balance counts for the representative, if there is one. -/
def unlocked (rep : H) (n : ℤ) : Shares H := if rep = 0 then 0 else share rep .unlockedProxy n

/-- Stake directed at the own account is self stake. -/
def stakeType (a target : H) : StakeType := if target = a then .selfStake else .lockedProxy

def shares (a target : H) (staked : ℤ) (rep : H) (available : ℤ) : Shares H :=
  share target (stakeType a target) staked + unlocked rep available

def stakeShares (a : H) (st : Option (StakedFunds H)) : Shares H :=
  st.elim 0 fun f => share f.target (stakeType a f.target) f.amount.toNat

/-- The representative that goes with a stake: staking to itself an account has none. -/
def repOf (a target : H) : H := if target = a then 0 else target

theorem unlocked_add (rep : H) (m n : ℤ) : unlocked rep (m + n) = unlocked rep m + unlocked rep n := by
  unfold unlocked
  split
  · simp
  · exact share_add ..

@[simp] theorem unlocked_zero (rep : H) : unlocked rep 0 = 0 := by
  unfold unlocked
  split <;> simp

@[simp] theorem unlocked_none (n : ℤ) : unlocked (0 : H) n = 0 := if_pos rfl

theorem share_unlocked_eq {rep r : H} (hr : r ≠ 0) (n : ℤ) (ty : StakeType) :
    share rep .unlockedProxy n r ty = unlocked rep n r ty := by
  unfold unlocked
  split
  · next hzero =>
    rw [share_apply,if_neg fun heq => hr (heq.1.trans hzero)]
    rfl
  · rfl

theorem unlocked_apply_of_ne {ty : StakeType} (hty : ty ≠ .unlockedProxy) (rep : H) (n : ℤ) (r : H) :
    unlocked rep n r ty = 0 := by
  unfold unlocked
  split
  · rfl
  · rw [share_apply,if_neg fun heq => hty heq.2]

theorem stakeType_ne (a target : H) : stakeType a target ≠ .unlockedProxy := by
  unfold stakeType
  split <;> simp

theorem shares_stake (a target : H) (staked : ℤ) (rep : H) (available : ℤ) :
    shares a target staked rep available target (stakeType a target) = staked := by
  simp only [shares,Pi.add_apply]
  rw [share_apply,if_pos ⟨rfl,rfl⟩,unlocked_apply_of_ne (stakeType_ne a target),add_zero]

theorem shares_unlocked {rep : H} (hrep : rep ≠ 0) (a target : H) (staked available : ℤ) :
    shares a target staked rep available rep .unlockedProxy = available := by
  simp only [shares,Pi.add_apply]
  rw [share_apply,if_neg fun heq => stakeType_ne a target heq.2.symm,zero_add,unlocked,if_neg hrep,
    share_apply,if_pos ⟨rfl,rfl⟩]

namespace AccountInfo

/-- The newest representative counts from the epoch after the next one at the latest. -/
structure Represented (info : AccountInfo H) (epoch : Epoch) : Prop where
  fallback : info.newRep.rep = 0 → info.oldRep.rep = 0
  active : info.newRep.epochFirstActive.toNat ≤ epoch.toNat + 2
  bounded : epoch.toNat + 2 < 2 ^ 32

/-- Both records of the representative count from the next epoch on. -/
structure Timely (info : AccountInfo H) (epoch : Epoch) : Prop where
  newRep : info.newRep.epochFirstActive.toNat ≤ epoch.toNat + 1
  oldRep : info.oldRep.epochFirstActive.toNat ≤ epoch.toNat + 1

variable {info : AccountInfo H} {epoch : Epoch}

theorem Represented.nextRep (h : info.Represented epoch) {rep : H}
    (hrep : info.getRepForEpoch (epoch + 2) = some rep) : rep = info.newRep.rep := by
  have hactive := h.active
  have hbounded := h.bounded
  unfold getRepForEpoch at hrep
  split at hrep
  · cases hrep
    rfl
  · next hnot =>
    have hzero : info.newRep.rep = 0 := by
      refine Decidable.byContradiction fun hne => hnot ⟨hne,?_⟩
      bv_omega
    split at hrep
    · cases hrep
      rw [hzero,h.fallback hzero]
    · cases hrep

theorem Represented.eq_zero (h : info.Represented epoch) {later : Epoch} {rep : H}
    (hzero : info.newRep.rep = 0) (hrep : info.getRepForEpoch later = some rep) : rep = 0 := by
  unfold getRepForEpoch at hrep
  rw [if_neg fun hand => hand.1 hzero] at hrep
  split at hrep
  · cases hrep
    exact h.fallback hzero
  · cases hrep

theorem Represented.rep (h : info.Represented epoch) (htimely : info.Timely epoch) :
    info.getRepForEpoch (epoch + 1) = some info.newRep.rep ∧
      info.getRepForEpoch (epoch + 2) = some info.newRep.rep := by
  have hnew := htimely.newRep
  have hold := htimely.oldRep
  have hbounded := h.bounded
  have hget : ∀ later : Epoch,epoch.toNat + 1 ≤ later.toNat →
      info.getRepForEpoch later = some info.newRep.rep := by
    intro later hlater
    unfold getRepForEpoch
    by_cases hzero : info.newRep.rep = 0
    · rw [if_neg fun hand => hand.1 hzero,if_pos (by bv_omega),hzero,h.fallback hzero]
    · rw [if_pos ⟨hzero,by bv_omega⟩]
  exact ⟨hget _ (by bv_omega),hget _ (by bv_omega)⟩

end AccountInfo

namespace Tracking

variable {k : Tracking H} {E : Halt → Prop} {st : Option (StakedFunds H)} {V : Shares H}
  {g g' : GovernanceStore H} {info : AccountInfo H}

/-- What must hold for the available balance to change without a halt. -/
structure Serves (k : Tracking H) (V : Shares H) (info : AccountInfo H) (change : ℤ)
    (g : GovernanceStore H) : Prop where
  timely : info.Timely k.epoch
  recorded : info.newRep.rep ≠ 0 → info.newRep.rep ∈ g.votingPower
  low : info.newRep.rep ≠ 0 → 0 ≤ V info.newRep.rep .unlockedProxy + change
  high : info.newRep.rep ≠ 0 → V info.newRep.rep .unlockedProxy + change ≤ k.limit

theorem tracked_proxyChange (hE : k.Permits E) (h : k.Tracked st V g)
    (hrep : info.Represented k.epoch) {op : OpType} {diff : Amount}
    (hsafe : k.safe → k.Serves V info (op.signed diff) g) :
    (info.proxyChange op diff k.epoch).wp E
      (fun _ => k.Tracked st (V + unlocked info.newRep.rep (op.signed diff))) g := by
  refine wp_bind.mpr (wp_need (fun hnone => ?_) fun rep hgetRep => ?_)
  · refine hE.votingPower.resolve_left fun hs => ?_
    rw [(hrep.rep (hsafe hs).timely).1] at hnone
    cases hnone
  refine wp_bind.mpr (wp_need (fun hnone => ?_) fun nextRep hgetNext => ?_)
  · refine hE.votingPower.resolve_left fun hs => ?_
    rw [(hrep.rep (hsafe hs).timely).2] at hnone
    cases hnone
  have hnext := hrep.nextRep hgetNext
  subst hnext
  have hsame : k.safe → rep = info.newRep.rep := fun hs =>
    Option.some.inj (hgetRep.symm.trans (hrep.rep (hsafe hs).timely).1)
  refine wp_when (k.Tracked st (V + unlocked rep (op.signed diff))) (fun hne => ?_) (fun hzero => ?_)
    fun g1 h1 => wp_ite (fun hmoved => ?_) fun hstays => ?_
  · refine (tracked_modifyStored hE h (fun _ => rfl) fun hs => ?_).imp fun _ g1 h1 =>
      h1.congr fun r hr ty => ?_
    · have hserves := hsafe hs
      rw [hsame hs] at hne ⊢
      exact ⟨hne,hserves.recorded hne,hserves.low hne,hserves.high hne⟩
    · simp only [Pi.add_apply,share_unlocked_eq hr]
  · rw [not_not.mp hzero,unlocked_none,add_zero]
    exact h
  · -- the change is undone for the old representative and made for the new one
    have hunsafe : ¬k.safe := fun hs => hmoved.2 (hsame hs).symm
    have hundo : ∀ op' : OpType,op'.signed diff = -op.signed diff →
        (modifyStored .unlockedProxy op' rep diff (k.epoch + 1)).wp E (fun _ => k.Tracked st V) g1 := by
      intro op' hop
      refine (tracked_modifyStored hE h1 (fun hs => absurd hs hunsafe)
        fun hs => absurd hs hunsafe).imp fun _ g2 h2 => h2.congr fun r hr ty => ?_
      simp only [Pi.add_apply,share_unlocked_eq hr,hop]
      have hcancel := unlocked_add rep (op.signed diff) (-op.signed diff)
      rw [add_neg_cancel,unlocked_zero] at hcancel
      have hat := congrFun (congrFun hcancel r) ty
      simp only [Pi.zero_apply,Pi.add_apply] at hat
      omega
    refine (hundo _ ?_).bind fun _ g2 h2 => ?_
    · cases op <;> simp
    · refine (tracked_modifyStored hE h2 (fun hs => absurd hs hunsafe)
        fun hs => absurd hs hunsafe).imp fun _ g3 h3 => h3.congr fun r hr ty => ?_
      simp only [Pi.add_apply,share_unlocked_eq hr]
  · have heq : rep = info.newRep.rep := by
      by_cases hzero : info.newRep.rep = 0
      · rw [hzero,hrep.eq_zero hzero hgetRep]
      · exact Decidable.byContradiction fun hne => hstays ⟨hzero,fun heq => hne heq.symm⟩
    rw [← heq]
    exact h1

theorem tracked_setAvailableBalance (hE : k.Permits E) (h : k.Tracked st V g)
    (hrep : info.Represented k.epoch) {newAvailable : Amount}
    (hsafe : k.safe → k.Serves V info (newAvailable.toNat - info.availableBalance.toNat) g) :
    (info.setAvailableBalance newAvailable k.epoch).wp E (fun info' g' =>
      k.Tracked st (V + unlocked info.newRep.rep
        (newAvailable.toNat - info.availableBalance.toNat)) g' ∧
      info' = { info with availableBalance := newAvailable } ∧ newAvailable ≤ info.balance) g := by
  have hchange : (info.setAvailableBalance newAvailable k.epoch).wp E (fun _ =>
      k.Tracked st (V + unlocked info.newRep.rep
        (newAvailable.toNat - info.availableBalance.toNat))) g := by
    refine wp_ite (fun hgrows => ?_) fun hnot => ?_
    · have hsigned : add.signed (newAvailable - info.availableBalance) =
          newAvailable.toNat - info.availableBalance.toNat := by
        rw [signed_add]
        bv_omega
      rw [← hsigned] at hsafe ⊢
      exact (tracked_proxyChange hE h hrep hsafe).bind fun _ g' h' =>
        wp_ite (fun _ => hE.balance) fun _ => h'
    · have hsigned : subtract.signed (info.availableBalance - newAvailable) =
          newAvailable.toNat - info.availableBalance.toNat := by
        rw [signed_subtract]
        bv_omega
      rw [← hsigned] at hsafe ⊢
      exact (tracked_proxyChange hE h hrep hsafe).bind fun _ g' h' =>
        wp_ite (fun _ => hE.balance) fun _ => h'
  exact hchange.and (ensures_iff.mp (info.ensures_setAvailableBalance newAvailable k.epoch) g)

theorem tracked_setBalance (hE : k.Permits E) (h : k.Tracked st V g)
    (hrep : info.Represented k.epoch) {newBalance : Amount}
    (hsafe : k.safe → k.Serves V info (newBalance.toNat - info.balance.toNat) g) :
    (info.setBalance newBalance k.epoch).wp E (fun info' g' =>
      k.Tracked st (V + unlocked info.newRep.rep (newBalance.toNat - info.balance.toNat)) g' ∧
      info' = { info with
        availableBalance := info.availableBalance + (newBalance - info.balance)
        balance := newBalance } ∧
      (newBalance ≤ info.balance → info.balance - newBalance ≤ info.availableBalance)) g := by
  have hchange : (info.setBalance newBalance k.epoch).wp E (fun _ =>
      k.Tracked st (V + unlocked info.newRep.rep (newBalance.toNat - info.balance.toNat))) g := by
    refine wp_ite (fun hgrows => ?_) fun hnot => wp_ite (fun _ => hE.balance) fun _ => ?_
    · have hsigned : add.signed (newBalance - info.balance) =
          newBalance.toNat - info.balance.toNat := by
        rw [signed_add]
        bv_omega
      rw [← hsigned] at hsafe ⊢
      exact (tracked_proxyChange hE h hrep hsafe).bind fun _ _ h' => h'
    · have hsigned : subtract.signed (info.balance - newBalance) =
          newBalance.toNat - info.balance.toNat := by
        rw [signed_subtract]
        bv_omega
      rw [← hsigned] at hsafe ⊢
      exact (tracked_proxyChange hE h hrep hsafe).bind fun _ _ h' => h'
  exact hchange.and (ensures_iff.mp (info.ensures_setBalance newBalance k.epoch) g)

section Stake
variable {target rep : H} {staked available : ℤ} {d : Amount}

theorem tracked_subtractStake (hE : k.Permits E)
    (h : k.Tracked st (shares k.account target (staked + d.toNat) rep available) g)
    (hsafe : k.safe → target ≠ 0 ∧ target ∈ g.votingPower ∧ 0 ≤ staked ∧ staked ≤ k.limit) :
    (subtractStake k.account target d k.epoch).wp E
      (fun _ => k.Tracked st (shares k.account target staked rep available)) g := by
  have hmodify : (modifyStored (stakeType k.account target) .subtract target d k.epoch).wp E
      (fun _ => k.Tracked st (shares k.account target staked rep available)) g := by
    refine (tracked_modifyStored hE h (fun _ => rfl) fun hs => ?_).imp fun _ g' h' => ?_
    · obtain ⟨hne,hmem,hlow,hhigh⟩ := hsafe hs
      rw [shares_stake,signed_subtract]
      exact ⟨hne,hmem,by omega,by omega⟩
    · have heq : shares k.account target (staked + d.toNat) rep available +
          share target (stakeType k.account target) (subtract.signed d) =
            shares k.account target staked rep available := by
        unfold shares
        rw [signed_subtract,share_add,share_neg]
        abel
      rwa [heq] at h'
  unfold stakeType at hmodify
  refine wp_ite (fun heq => ?_) fun hne => ?_
  · rwa [if_pos heq] at hmodify
  · rwa [if_neg hne] at hmodify

theorem tracked_addStake (hE : k.Permits E)
    (h : k.Tracked st (shares k.account target staked rep available) g)
    (hsafe : k.safe → target ≠ 0 ∧ 0 ≤ staked ∧ staked + d.toNat ≤ k.limit ∧
      (target ∈ k.reps ∨ target = k.account ∧ d ≠ 0)) :
    (addStake k.account target d k.epoch).wp E
      (fun _ => k.Tracked st (shares k.account target (staked + d.toNat) rep available)) g := by
  have heq : shares k.account target staked rep available +
      share target (stakeType k.account target) d.toNat =
        shares k.account target (staked + d.toNat) rep available := by
    unfold shares
    rw [share_add]
    abel
  have hstake := shares_stake k.account target staked rep available
  unfold stakeType at heq hstake
  refine wp_ite (fun hself => ?_) fun hne => ?_
  · rw [if_pos hself] at heq hstake
    rw [← heq]
    refine tracked_addSelfStake hE h fun hs => ?_
    obtain ⟨hne,hlow,hhigh,hreps⟩ := hsafe hs
    rw [hstake]
    exact ⟨hne,hhigh,.inr (hreps.imp_right And.right)⟩
  · rw [if_neg hne] at heq hstake
    rw [← heq]
    refine tracked_modifyStored hE h (fun _ => rfl) fun hs => ?_
    obtain ⟨hzero,hlow,hhigh,hreps⟩ := hsafe hs
    rw [hstake,signed_add]
    exact ⟨hzero,h.mem_of_reps hs (hreps.resolve_right fun hself => hne hself.1),by omega,hhigh⟩

theorem tracked_leaveTarget (hE : k.Permits E) {amount available : Amount} (h : k.Tracked st
      (shares k.account target amount.toNat (repOf k.account target) available.toNat) g)
    (hsafe : k.safe → target ≠ 0 ∧ (amount ≠ 0 ∨ target ∈ k.reps) ∧ 0 ≤ k.limit ∧
      available.toNat ≤ k.limit ∧ (target = k.account ∨ target ∈ k.reps ∨ available ≠ 0)) :
    (leaveTarget k.account target amount available k.epoch).wp E (fun _ => k.Tracked st 0) g := by
  have hstart : k.Tracked st (shares k.account target ((0 : ℤ) + amount.toNat)
      (repOf k.account target) available.toNat) g := by
    rw [zero_add]
    exact h
  refine (tracked_subtractStake hE hstart fun hs => ?_).bind fun _ g1 h1 => ?_
  · obtain ⟨hne,hrecord,hlimit,-,-⟩ := hsafe hs
    refine ⟨hne,?_,Int.le_refl 0,hlimit⟩
    rcases hrecord with hamount | hreps
    · refine h.mem_votingPower (hE.sound hs) hne (stakeType k.account target) ?_
      rw [shares_stake]
      bv_omega
    · exact h.mem_of_reps hs hreps
  · unfold shares at h1
    rw [share_zero,zero_add] at h1
    unfold repOf at h1
    refine wp_ite (fun hne => ?_) fun hself => ?_
    · rw [if_neg hne] at h1
      have htotal : ∀ r,r ≠ 0 → ∀ ty,(0 : Shares H) r ty = (unlocked target available.toNat +
          share target .unlockedProxy (subtract.signed available)) r ty := by
        intro r hr ty
        have hcancel := congrFun (congrFun (unlocked_add target available.toNat
          (-available.toNat)) r) ty
        rw [add_neg_cancel,unlocked_zero] at hcancel
        simp only [Pi.add_apply,share_unlocked_eq hr,signed_subtract]
        exact hcancel
      refine (tracked_modifyStored hE h1 (fun _ => rfl) fun hs => ?_).imp fun _ g2 h2 =>
        h2.congr htotal
      obtain ⟨hzero,-,hlimit,havailable,hkept⟩ := hsafe hs
      have hvalue : unlocked target (available.toNat : ℤ) target .unlockedProxy =
          available.toNat := by
        rw [unlocked,if_neg hzero,share_apply,if_pos ⟨rfl,rfl⟩]
      rw [hvalue,signed_subtract]
      refine ⟨hzero,?_,by omega,by omega⟩
      rcases hkept.resolve_left hne with hreps | havail
      · exact h1.mem_of_reps hs hreps
      · refine h1.mem_votingPower (hE.sound hs) hzero .unlockedProxy ?_
        bv_omega
    · rw [if_pos (not_not.mp hself),unlocked_none] at h1
      exact h1

theorem tracked_joinTarget (hE : k.Permits E) {amount available : Amount} (h : k.Tracked st 0 g)
    (hsafe : k.safe → target ≠ 0 ∧ target ∈ k.reps ∧ amount.toNat ≤ k.limit ∧
      available.toNat ≤ k.limit) :
    (joinTarget k.account target amount available k.epoch).wp E (fun _ => k.Tracked st
      (shares k.account target amount.toNat (repOf k.account target) available.toNat)) g := by
  have hstart : k.Tracked st (shares k.account target 0 0 0) g := by
    unfold shares
    rw [share_zero,unlocked_zero,add_zero]
    exact h
  refine (tracked_addStake hE hstart fun hs => ?_).bind fun _ g1 h1 => ?_
  · obtain ⟨hne,hreps,hamount,-⟩ := hsafe hs
    exact ⟨hne,Int.le_refl 0,by omega,.inl hreps⟩
  · rw [zero_add] at h1
    unfold shares at h1 ⊢
    unfold repOf
    rw [unlocked_zero,add_zero] at h1
    refine wp_ite (fun hne => ?_) fun hself => ?_
    · rw [if_neg hne]
      refine (tracked_modifyStored hE h1 (fun _ => rfl) fun hs => ?_).imp fun _ g2 h2 =>
        h2.congr fun r hr ty => ?_
      · obtain ⟨hzero,hreps,-,havailable⟩ := hsafe hs
        rw [share_apply,if_neg fun heq => stakeType_ne k.account target heq.2.symm,signed_add]
        exact ⟨hzero,h1.mem_of_reps hs hreps,by omega,by omega⟩
      · simp only [Pi.add_apply,share_unlocked_eq hr,signed_add]
    · rw [if_pos (not_not.mp hself),unlocked_none,add_zero]
      exact h1

end Stake

section Frames
variable {f : StakedFunds H} {t : ThawingFunds H}

variable (hE : k.Permits E)
include hE

variable (h : k.Tracked st V g)
include h

theorem tracked_storeStaked : (storeStaked f k.account).wp E (fun _ => k.Tracked (some f) V) g := by
  exact (onlyLiabilities_updateLiabilityAmount hE.liability ..).imp fun _ _ hl =>
    (h.putStake f).liabilities hl

theorem tracked_updateStaked (newAmount : Amount) :
    (updateStaked f k.account newAmount).wp E (fun _ => k.Tracked
      (if 0 < newAmount then some { f with amount := newAmount } else none) V) g := by
  refine wp_ite (fun hpos => ?_) fun hzero => ?_
  · rw [if_pos hpos]
    exact tracked_storeStaked hE h
  · rw [if_neg hzero,wp_bind,wp_modify]
    exact (onlyLiabilities_deleteLiability hE.liability ..).imp fun _ _ hl =>
      h.dropStake.liabilities hl

theorem tracked_storeThawing : (storeThawing cfg t k.account).wp E (fun _ => k.Tracked st V) g := by
  unfold storeThawing
  rw [wp_bind,wp_get]
  dsimp only
  split
  · refine wp_ite (fun _ => ?_) fun _ => hE.other
    exact (onlyLiabilities_updateLiabilityAmount hE.liability ..).imp fun _ _ hl =>
      (h.setThawing _).liabilities hl
  · exact (onlyLiabilities_updateLiabilityAmount hE.liability ..).imp fun _ _ hl =>
      (h.setThawing _).liabilities hl

theorem tracked_updateThawing (newAmount : Amount) :
    (updateThawing cfg t k.account newAmount).wp E (fun _ => k.Tracked st V) g := by
  refine wp_ite (fun _ => tracked_storeThawing hE (h.setThawing _)) fun _ => ?_
  exact (onlyLiabilities_deleteLiability hE.liability ..).imp fun _ _ hl =>
    (h.setThawing _).liabilities hl

theorem tracked_extract {inputTarget : H} {inputAmount : Amount}
    {inputExpiration : Epoch} {update : Amount → Gov H Unit} {outputTarget : H}
    {amountToExtract : Amount} {epoch : Epoch}
    {Q : Amount × AccountInfo H → GovernanceStore H → Prop}
    (htake : ∀ info' g',k.Tracked st V g' → SecondaryUpdated info info' →
      (update (inputAmount - extractable inputAmount amountToExtract)).wp E
        (fun _ => Q (extractable inputAmount amountToExtract,info')) g')
    (hrefuse : inputTarget ≠ outputTarget →
      ∀ info' g',k.Tracked st V g' → SecondaryUpdated info info' → Q (0,info') g') :
    (extract cfg inputTarget inputAmount inputExpiration update outputTarget amountToExtract
      k.account info epoch).wp E Q g := by
  refine wp_ite (fun _ => ?_) fun hne => wp_ite (fun _ => ?_) fun _ => ?_
  · exact (htake info g h rfl).bind fun _ _ h => h
  · exact hrefuse hne info g h rfl
  · refine (onlyLiabilities_createSecondaryLiability cfg hE.liability hE.other ..).bind
      fun r g1 h1 => ?_
    have hl := h.liabilities h1.1
    refine wp_ite (fun _ => ?_) fun _ => ?_
    · exact (htake r.2 g1 hl h1.2).bind fun _ _ h => h
    · exact hrefuse hne r.2 g1 hl h1.2

omit h

variable {epoch : Epoch}

theorem tracked_beginThawing (h : k.Tracked (some f) V g)
    {amountToThaw : Amount} (hle : amountToThaw ≤ f.amount) :
    (beginThawing cfg k.account info epoch f amountToThaw).wp E (fun info' g' =>
      SecondaryUpdated info info' ∧ k.Tracked (if 0 < f.amount - amountToThaw then
        some { f with amount := f.amount - amountToThaw } else none) V g') g := by
  unfold beginThawing
  rw [wp_bind,wp_createThawingFunds,wp_bind]
  have htake : extractable f.amount amountToThaw = amountToThaw := by
    exact if_neg (BitVec.not_lt.mpr hle)
  refine tracked_extract hE (h.liabilities (g.onlyLiabilities_putLiability cfg _))
    (fun info' g' h1 hinfo => ?_) fun hne => absurd rfl hne
  rw [htake]
  refine (tracked_updateStaked hE h1 _).imp fun _ g2 h2 => ?_
  refine wp_ite (fun _ => ?_) fun hne => absurd rfl hne
  exact (tracked_storeThawing hE h2).bind fun _ _ h => ⟨hinfo,h⟩

theorem tracked_thawRest (h : k.Tracked st V g) (hcur : 0 < f.amount → st = some f) :
    (thawRest cfg k.account info epoch f).wp E (fun info' g' =>
      SecondaryUpdated info info' ∧ ∃ st',k.Tracked st' V g') g := by
  refine wp_ite (fun hpos => ?_) fun _ => ⟨rfl,st,h⟩
  rw [hcur hpos] at h
  exact (tracked_beginThawing hE h (BitVec.le_refl _)).imp fun _ _ h => ⟨h.1,_,h.2⟩

theorem tracked_extractThawing {ts : List (ThawingFunds H)}
    {amountLeft : Amount} (h : k.Tracked st V g) :
    (extractThawing cfg k.account epoch ts f amountLeft info).wp E (fun r g' =>
      SecondaryUpdated info r.2.2 ∧ r.1 = { f with amount := r.1.amount } ∧
      r.1.amount + r.2.1 = f.amount + amountLeft ∧ r.2.1 ≤ amountLeft ∧ k.Tracked st V g') g := by
  induction ts generalizing f amountLeft info g with
  | nil => exact ⟨rfl,rfl,rfl,BitVec.le_refl _,h⟩
  | cons t ts ih =>
    -- whatever is taken moves from what is left to the stake
    have hrest : ∀ (taken : Amount) info' g',taken ≤ amountLeft → k.Tracked st V g' →
        SecondaryUpdated info info' →
        (if 0 < amountLeft - taken then extractThawing cfg k.account epoch ts
            { f with amount := f.amount + taken } (amountLeft - taken) info'
          else pure ({ f with amount := f.amount + taken },amountLeft - taken,info')).wp E
        (fun r g' => SecondaryUpdated info r.2.2 ∧ r.1 = { f with amount := r.1.amount } ∧
          r.1.amount + r.2.1 = f.amount + amountLeft ∧ r.2.1 ≤ amountLeft ∧
          k.Tracked st V g') g' := by
      intro taken info' g' hle h' hinfo
      have hsum : f.amount + taken + (amountLeft - taken) = f.amount + amountLeft := by bv_omega
      refine wp_ite (fun _ => ?_) fun _ => ⟨hinfo,rfl,hsum,by dsimp only; bv_omega,h'⟩
      refine (ih h').imp fun r g2 h2 => ?_
      obtain ⟨hinfo2,hheld,hsum2,hleft,h2⟩ := h2
      exact ⟨hinfo.trans hinfo2,hheld,hsum2.trans hsum,by bv_omega,h2⟩
    unfold extractThawing
    rw [wp_bind]
    refine tracked_extract hE h (fun info' g' h1 hinfo => ?_) fun _ info' g' h1 hinfo => ?_
    · refine (tracked_updateThawing hE h1 _).imp fun _ g2 h2 => ?_
      exact hrest _ info' g2 (extractable_le ..) h2 hinfo
    · exact hrest 0 info' g' (by bv_omega) h1 hinfo

end Frames

end Tracking

end LogosCore.Ledger
