import LogosCore.StakingFrames
import LogosCore.StakePower

/-! # Voting power over whole runs

The power of every representative for the next epoch is what all accounts contribute to it. An
operation of one account replaces the contribution of that account, so the sum is kept along
every run in which no stake is given up by redirecting nothing of it. -/
namespace LogosCore.Ledger

variable {H : Type} [DecidableEq H] [Zero H] {cfg : Config H}

open Option Program Machine VotingPowerManager StakingManager LiabilityManager Tracking
open Table (amountAt map_total total total_congr total_eq_zero)

namespace FundsEvent

/-- The account does not stake to itself while represented, does not redirect its stake with an
amount of zero, and its representative is not set two epochs ahead. -/
def Traceable (e : FundsEvent H) (st : Option (StakedFunds H)) (info : AccountInfo H) : Prop :=
  match e.action with
  | .stake amount target => (repOf e.origin target = 0 → info.newRep.rep = 0) ∧
    (amount = 0 → ∀ f ∈ st,f.target = target) ∧
    info.newRep.epochFirstActive.toNat ≤ e.epoch.toNat + 2
  | .setBalance _ => info.newRep.epochFirstActive.toNat ≤ e.epoch.toNat + 2
  | .pruneThawing => info.newRep.epochFirstActive.toNat ≤ e.epoch.toNat + 2
  | .markThawingAsFrozen _ => True
  | .setExpirationOfFrozen _ => True

instance (e : FundsEvent H) (st : Option (StakedFunds H)) (info : AccountInfo H) :
    Decidable (e.Traceable st info) :=
  match e with
  | ⟨_,_,.stake _ _⟩ => inferInstanceAs (Decidable (_ ∧ _ ∧ _))
  | ⟨_,_,.setBalance _⟩ => inferInstanceAs (Decidable (_ ≤ _))
  | ⟨_,_,.pruneThawing⟩ => inferInstanceAs (Decidable (_ ≤ _))
  | ⟨_,_,.markThawingAsFrozen _⟩ => isTrue trivial
  | ⟨_,_,.setExpirationOfFrozen _⟩ => isTrue trivial

/-- What must hold for an event not to halt in voting power. -/
def Safe (e : FundsEvent H) (k : Tracking H) (st : Option (StakedFunds H)) (info : AccountInfo H)
    (g : GovernanceStore H) : Prop :=
  let V := stakeShares k.account st + unlocked info.newRep.rep info.availableBalance.toNat
  match e.action with
  | .stake amount target => k.StakeSafe st info amount target
  | .setBalance newBalance => k.Serves V info (newBalance.toNat - info.balance.toNat) g
  | .pruneThawing => ¬k.epoch ≤ info.epochThawingUpdated → k.Serves V info
    ((info.availableBalance + pruneableAmount (g.thawing.duplicates k.account) k.epoch).toNat -
      info.availableBalance.toNat) g
  | .markThawingAsFrozen _ => True
  | .setExpirationOfFrozen _ => True

end FundsEvent

namespace Tracking

variable {k : Tracking H} {E : Halt → Prop} {st : Option (StakedFunds H)} {g : GovernanceStore H}
  {info : AccountInfo H}

/-- Whatever an account does, its contribution follows. -/
structure Performed (k : Tracking H) (st : Option (StakedFunds H)) (action : FundsAction H)
    (info info' : AccountInfo H) (g' : GovernanceStore H) : Prop where
  tracked : ∃ st',k.Tracked st' (stakeShares k.account st' + unlocked info'.newRep.rep
    info'.availableBalance.toNat) g' ∧
      (∀ f ∈ st',f.amount ≠ 0 ∧ info'.newRep.rep = repOf k.account f.target) ∧
      ∀ f ∈ st',f ∈ st ∨ ∃ amount,action = .stake amount f.target
  fallback : info'.newRep.rep = 0 → info'.oldRep.rep = 0
  newRep : info'.newRep.epochFirstActive.toNat ≤
    max info.newRep.epochFirstActive.toNat (k.epoch.toNat + 1)
  oldRep : info'.oldRep.epochFirstActive.toNat ≤
    max info.oldRep.epochFirstActive.toNat info.newRep.epochFirstActive.toNat

theorem performed_of_same {info' : AccountInfo H} {g' : GovernanceStore H} {action : FundsAction H}
    (hnew : info'.newRep = info.newRep) (hold : info'.oldRep = info.oldRep)
    (hcur : ∀ f ∈ st,f.amount ≠ 0 ∧ info.newRep.rep = repOf k.account f.target)
    (hfallback : info.newRep.rep = 0 → info.oldRep.rep = 0)
    (h : k.Tracked st (stakeShares k.account st + unlocked info.newRep.rep
      info'.availableBalance.toNat) g') : k.Performed st action info info' g' := by
  refine ⟨⟨st,?_,?_,fun f hf => .inl hf⟩,?_,?_,?_⟩
  · rw [hnew]
    exact h
  · rw [hnew]
    exact hcur
  · rw [hnew,hold]
    exact hfallback
  · rw [hnew]
    exact Nat.le_max_left ..
  · rw [hold]
    exact Nat.le_max_left ..

theorem tracked_perform {e : FundsEvent H} (hE : k.Permits E) (horigin : k.account = e.origin)
    (hepoch : k.epoch = e.epoch) (hbounded : e.epoch.toNat + 2 < 2 ^ 32)
    (h : k.Tracked st (stakeShares k.account st + unlocked info.newRep.rep
      info.availableBalance.toNat) g)
    (hcur : ∀ f ∈ st,f.amount ≠ 0 ∧ info.newRep.rep = repOf k.account f.target)
    (hfallback : info.newRep.rep = 0 → info.oldRep.rep = 0) (htrace : e.Traceable st info)
    (havailable : info.availableBalance ≤ info.balance) (hsafe : k.safe → e.Safe k st info g) :
    (e.perform cfg info).wp E (k.Performed st e.action info) g := by
  obtain ⟨origin,epoch,action⟩ := e
  subst horigin hepoch
  have hrep : info.newRep.epochFirstActive.toNat ≤ k.epoch.toNat + 2 → info.Represented k.epoch :=
    fun hactive => ⟨hfallback,hactive,hbounded⟩
  cases action with
  | stake amount target =>
    obtain ⟨hself,hzero,hactive⟩ := htrace
    refine (tracked_stake hE h hcur (hrep hactive) hself hzero hsafe).imp fun info' g' h' => ?_
    obtain ⟨st',hfixed,htracked⟩ := h'.tracked
    refine ⟨⟨st',htracked,fun f hf => ?_,fun f hf => ?_⟩,h'.represented.fallback,h'.newRep,
      h'.oldRep⟩
    · obtain ⟨htarget,hamount,hne⟩ := hfixed.held f hf
      exact ⟨hamount ▸ hne,by rw [h'.rep,htarget]⟩
    · obtain ⟨htarget,-,-⟩ := hfixed.held f hf
      exact .inr ⟨amount,by rw [htarget]⟩
  | setBalance newBalance =>
    refine (tracked_setBalance hE h (hrep htrace) hsafe).imp fun info' g' h' => ?_
    obtain ⟨h',hinfo,hspent⟩ := h'
    rw [hinfo]
    refine performed_of_same rfl rfl hcur hfallback ?_
    have hchange : (((info.availableBalance + (newBalance - info.balance)).toNat : ℕ) : ℤ) -
        info.availableBalance.toNat = newBalance.toNat - info.balance.toNat := by
      by_cases hle : newBalance ≤ info.balance
      · bv_omega
      · bv_omega
    rw [← hchange,unlocked_shift] at h'
    exact h'
  | pruneThawing =>
    refine (tracked_pruneThawing hE h (hrep htrace) hsafe).imp fun info' g' h' => ?_
    exact performed_of_same h'.1 h'.2.1 hcur hfallback h'.2.2
  | markThawingAsFrozen epochCreated =>
    exact (tracked_redate hE h).bind fun _ _ h' =>
      performed_of_same rfl rfl hcur hfallback h'
  | setExpirationOfFrozen epochUnfrozen =>
    exact (tracked_redate hE h).bind fun _ _ h' =>
      performed_of_same rfl rfl hcur hfallback h'

end Tracking

/-- The available balance stays within the balance. -/
theorem FundsEvent.available_perform (e : FundsEvent H) (info : AccountInfo H) :
    (e.perform cfg info).Ensures fun info' =>
      info.availableBalance ≤ info.balance → info'.availableBalance ≤ info'.balance := by
  obtain ⟨origin,epoch,action⟩ := e
  cases action with
  | stake amount target => exact (restaked_stake cfg ..).mono fun _ h => h.available
  | setBalance newBalance =>
    refine (info.ensures_setBalance newBalance epoch).mono fun info' h hle => ?_
    obtain ⟨rfl,hspent⟩ := h
    by_cases hshrinks : newBalance ≤ info.balance
    · bv_omega
    · bv_omega
  | pruneThawing =>
    refine ensures_ite (fun _ => ensures_pure id) fun _ => ensures_after fun g => ensures_after fun _ => ?_
    refine (AccountInfo.ensures_setAvailableBalance ..).mono fun info' h _ => ?_
    obtain ⟨rfl,hle⟩ := h
    exact hle
  | markThawingAsFrozen epochCreated => exact ensures_after fun _ => ensures_pure id
  | setExpirationOfFrozen epochUnfrozen => exact ensures_after fun _ => ensures_pure id

theorem FundsEvent.balance_perform (e : FundsEvent H) (info : AccountInfo H) :
    (e.perform cfg info).Ensures fun info' => info'.balance = match e.action with
      | .setBalance newBalance => newBalance
      | _ => info.balance := by
  obtain ⟨origin,epoch,action⟩ := e
  cases action with
  | stake amount target =>
    exact (restaked_stake cfg ..).mono fun _ h => congrArg AccountBase.balance h.base
  | setBalance newBalance =>
    refine (info.ensures_setBalance newBalance epoch).mono fun info' h => ?_
    rw [h.1]
  | pruneThawing =>
    refine ensures_ite (fun _ => ensures_pure rfl) fun _ => ensures_after fun g =>
      ensures_after fun _ => ?_
    refine (AccountInfo.ensures_setAvailableBalance ..).mono fun info' h => ?_
    rw [h.1]
  | markThawingAsFrozen epochCreated => exact ensures_after fun _ => ensures_pure rfl
  | setExpirationOfFrozen epochUnfrozen => exact ensures_after fun _ => ensures_pure rfl

namespace Holdings

def contribution (s : Holdings H) (a : H) : Shares H :=
  stakeShares a (s.gov.stakes.lookup a) +
    unlocked (s.info a).newRep.rep (s.info a).availableBalance.toNat

def contributions (s : Holdings H) (counted : H → Bool) : Shares H :=
  Table.total (fun a f => if counted a then stakeShares a (some f) else 0) s.gov.stakes +
    Table.total (fun a info => if counted a then
      unlocked info.newRep.rep info.availableBalance.toNat else 0) s.accounts

def without (s : Holdings H) (a : H) : Holdings H :=
  ⟨s.accounts.erase a,{ s.gov with stakes := s.gov.stakes.erase a }⟩

variable {s s' : Holdings H} {a : H}

theorem contributions_eq (s : Holdings H) (counted : H → Bool) (a : H) :
    s.contributions counted =
      (s.without a).contributions counted + if counted a then s.contribution a else 0 := by
  have hstakes := Table.total_erase
    (fun a f => if counted a then stakeShares a (some f) else 0) s.gov.stakes a
  have haccounts := Table.total_erase (fun a info => if counted a then
    unlocked info.newRep.rep (info.availableBalance.toNat : ℤ) else 0) s.accounts a
  have hstake : amountAt (fun a f => if counted a then stakeShares a (some f) else 0)
      s.gov.stakes a = if counted a then stakeShares a (s.gov.stakes.lookup a) else 0 := by
    unfold amountAt
    cases s.gov.stakes.lookup a with
    | none =>
      unfold stakeShares
      simp
    | some f => rfl
  have haccount : amountAt (fun a info => if counted a then
      unlocked info.newRep.rep (info.availableBalance.toNat : ℤ) else 0) s.accounts a =
        if counted a then unlocked (s.info a).newRep.rep (s.info a).availableBalance.toNat else 0 := by
    unfold amountAt info
    cases s.accounts.lookup a with
    | none => simp [AccountInfo.default]
    | some info => rfl
  unfold contributions contribution without
  rw [← hstakes,← haccounts,hstake,haccount]
  split <;> abel

theorem contributions_without_congr (hstakes : ∀ c,c ≠ a → s'.gov.stakes.lookup c = s.gov.stakes.lookup c)
    (haccounts : ∀ c,c ≠ a → s'.accounts.lookup c = s.accounts.lookup c) (counted : H → Bool) :
    (s'.without a).contributions counted = (s.without a).contributions counted := by
  unfold contributions without
  rw [Table.total_erase_congr _ hstakes,Table.total_erase_congr _ haccounts]

/-- The power of every representative is what accounts contribute, stake is directed at the
representative or the account itself, and the representative is in force next epoch. -/
structure Accounted (s : Holdings H) (epoch : Epoch) : Prop where
  power : ∀ r,r ≠ 0 → ∀ ty,s.gov.power r ty = s.contributions (fun _ => true) r ty
  staked : ∀ a,∀ f ∈ s.gov.stakes.lookup a,f.amount ≠ 0 ∧ (s.info a).newRep.rep = repOf a f.target
  fallback : ∀ a,(s.info a).newRep.rep = 0 → (s.info a).oldRep.rep = 0
  active : ∀ a,(s.info a).newRep.epochFirstActive.toNat ≤ epoch.toNat + 1
  available : ∀ a,(s.info a).availableBalance ≤ (s.info a).balance

def tracking (s : Holdings H) (e : FundsEvent H) (last : H → Epoch) (limit : ℤ) (safe : Prop) :
    Tracking H where
  account := e.origin
  epoch := e.epoch
  stakes := s.gov.stakes
  reps := s.gov.reps
  base := (s.without e.origin).contributions fun _ => true
  settled m := (s.without e.origin).contributions fun b => last b < m
  limit := limit
  safe := safe

theorem Accounted.power_eq {epoch : Epoch} (hs : s.Accounted epoch) (a : H) {r : H} (hr : r ≠ 0)
    (ty : StakeType) : s.gov.power r ty =
      (s.without a).contributions (fun _ => true) r ty + s.contribution a r ty := by
  have hsplit := congrFun (congrFun (s.contributions_eq (fun _ => true) a) r) ty
  rw [hs.power r hr ty,hsplit]
  simp

theorem contributions_insert {st : Option (StakedFunds H)} {g : GovernanceStore H}
    (hstaked : ∀ c,g.stakes.lookup c = if c = a then st else s.gov.stakes.lookup c)
    (info' : AccountInfo H) (counted : H → Bool) :
    (⟨s.accounts.insert a info',g⟩ : Holdings H).contributions counted =
      (s.without a).contributions counted + if counted a then
        stakeShares a st + unlocked info'.newRep.rep info'.availableBalance.toNat else 0 := by
  have hown : (⟨s.accounts.insert a info',g⟩ : Holdings H).contribution a =
      stakeShares a st + unlocked info'.newRep.rep info'.availableBalance.toNat := by
    unfold contribution
    rw [hstaked,if_pos rfl,info_insert,if_pos rfl]
  rw [contributions_eq _ counted a,hown]
  congr 1
  refine contributions_without_congr (fun c hc => ?_) (fun c hc => ?_) counted
  · rw [hstaked,if_neg hc]
  · exact AList.lookup_insert_ne hc

theorem step_accounted {e : FundsEvent H} {o : List Empty} {epoch : Epoch} (hs : s.Accounted epoch)
    (hepoch : epoch.toNat + 2 < 2 ^ 32) (hle : e.epoch ≤ epoch)
    (htrace : e.Traceable (s.gov.stakes.lookup e.origin) (s.info e.origin))
    (h : s.step cfg e = some (s',o)) : s'.Accounted epoch := by
  obtain ⟨info',g',hrun,rfl⟩ := step_eq_some cfg h
  let k := s.tracking e (fun _ => 0) 0 False
  have hE : k.Permits anyHalt := ⟨fun hs => False.elim hs,.inr trivial,trivial,trivial,trivial⟩
  have htracked : k.Tracked (s.gov.stakes.lookup e.origin) (s.contribution e.origin) s.gov := by
    refine ⟨fun c => ?_,rfl,fun r hr ty => hs.power_eq e.origin hr ty,fun hs => False.elim hs⟩
    split
    · next heq =>
      rw [heq]
      rfl
    · rfl
  have hperform : (e.perform cfg (s.info e.origin)).wp anyHalt
      (k.Performed (s.gov.stakes.lookup e.origin) e.action (s.info e.origin)) s.gov :=
    tracked_perform hE rfl rfl (by bv_omega) htracked (hs.staked e.origin) (hs.fallback e.origin)
      htrace (hs.available e.origin) fun hs => False.elim hs
  have havailable := (e.available_perform (s.info e.origin)).result hrun (hs.available e.origin)
  obtain ⟨⟨st',htracked',hcur,-⟩,hfallback,hnew,-⟩ := hperform.run hrun
  have hstaked : ∀ c,g'.stakes.lookup c =
      if c = e.origin then st' else s.gov.stakes.lookup c := htracked'.staked
  refine ⟨fun r hr ty => ?_,fun c f hf => ?_,fun c => ?_,fun c => ?_,fun c => ?_⟩
  · rw [contributions_insert hstaked info' fun _ => true,if_pos rfl]
    exact htracked'.power r hr ty
  · rw [hstaked] at hf
    rw [info_insert]
    split
    · next heq =>
      rw [if_pos heq] at hf
      rw [heq]
      exact hcur f hf
    · next hne =>
      rw [if_neg hne] at hf
      exact hs.staked c f hf
  · rw [info_insert]
    split
    · exact hfallback
    · exact hs.fallback c
  · rw [info_insert]
    split
    · refine Nat.le_trans hnew (Nat.max_le.mpr ⟨hs.active e.origin,?_⟩)
      exact Nat.add_le_add_right hle 1
    · exact hs.active c
  · rw [info_insert]
    split
    · exact havailable
    · exact hs.available c

theorem exec_accounted {es : List (FundsEvent H)} {o : List Empty} {epoch : Epoch}
    (hs : s.Accounted epoch) (hepoch : epoch.toNat + 2 < 2 ^ 32)
    (hrun : Along (step cfg) (fun s e => e.epoch ≤ epoch ∧
      e.Traceable (s.gov.stakes.lookup e.origin) (s.info e.origin)) s es)
    (h : exec (step cfg) s es = some (s',o)) : s'.Accounted epoch :=
  exec_preserves (I := fun _ s => s.Accounted epoch)
    (fun _ _ _ _ _ hs he hstep => step_accounted hs hepoch he.1 he.2 hstep) hs hrun h

/-- What the voting power of a representative for the next epoch should be. -/
structure Counted (s : Holdings H) (epoch : Epoch) (r : H) : Prop where
  selfStake : (s.gov.nextPower r).selfStake.toNat =
    Table.amountAt (fun a f => if f.target = a then f.amount.toNat else 0) s.gov.stakes r
  lockedProxied : (s.gov.nextPower r).lockedProxied.toNat =
    Table.total (fun a f => if a ≠ r ∧ f.target = r then f.amount.toNat else 0) s.gov.stakes
  unlockedProxied : (s.gov.nextPower r).unlockedProxied.toNat =
    Table.total (fun _ info => if info.getRepForEpoch (epoch + 1) = some r then
      info.availableBalance.toNat else 0) s.accounts

instance (s : Holdings H) (epoch : Epoch) (r : H) : Decidable (s.Counted epoch r) :=
  decidable_of_iff (_ ∧ _ ∧ _) ⟨fun h => ⟨h.1,h.2.1,h.2.2⟩,fun h => ⟨h.1,h.2,h.3⟩⟩

section Counting

theorem total_apply {V : Type} (f : H → V → Shares H) (t : Table H V) (r : H) (ty : StakeType) :
    total f t r ty = total (fun a v => f a v r ty) t :=
  (map_total ((Pi.evalAddMonoidHom (fun _ : StakeType => ℤ) ty).comp
    (Pi.evalAddMonoidHom (fun _ : H => StakeType → ℤ) r)) f t).symm

theorem natCast_total {V : Type} (f : H → V → ℕ) (t : Table H V) :
    ((total f t : ℕ) : ℤ) = total (fun a v => (f a v : ℤ)) t :=
  (map_total (Nat.castAddMonoidHom ℤ) f t).symm

theorem contributions_stake {ty : StakeType} (hty : ty ≠ .unlockedProxy) (s : Holdings H) (r : H) :
    s.contributions (fun _ => true) r ty = ((total (fun a f =>
      if r = f.target ∧ ty = stakeType a f.target then f.amount.toNat else 0)
        s.gov.stakes : ℕ) : ℤ) := by
  have haccounts : total (fun (_ : H) (info : AccountInfo H) =>
      unlocked info.newRep.rep (info.availableBalance.toNat : ℤ) r ty) s.accounts = 0 :=
    total_eq_zero fun _ _ => unlocked_apply_of_ne hty ..
  unfold contributions
  simp only [if_true,Pi.add_apply,total_apply]
  rw [haccounts,add_zero,natCast_total]
  refine total_congr fun e _ => ?_
  simp only [stakeShares,elim_some,share_apply]
  split <;> rfl

theorem contributions_unlocked {r : H} (hr : r ≠ 0) (s : Holdings H) :
    s.contributions (fun _ => true) r .unlockedProxy = ((total (fun _ info =>
      if info.newRep.rep = r then info.availableBalance.toNat else 0) s.accounts : ℕ) : ℤ) := by
  have hstakes : total (fun a f => stakeShares a (some f) r .unlockedProxy) s.gov.stakes = 0 := by
    refine total_eq_zero fun e _ => ?_
    simp only [stakeShares,elim_some]
    rw [share_apply,if_neg fun heq => stakeType_ne _ _ heq.2.symm]
  unfold contributions
  simp only [if_true,Pi.add_apply,total_apply]
  rw [hstakes,zero_add,natCast_total]
  refine total_congr fun e _ => ?_
  unfold unlocked
  split
  · next hzero =>
    rw [if_neg fun heq => hr (heq.symm.trans hzero)]
    rfl
  · rw [share_apply]
    by_cases heq : r = e.2.newRep.rep
    · rw [if_pos ⟨heq,rfl⟩,if_pos heq.symm]
    · rw [if_neg fun hand => heq hand.1,if_neg fun hsymm => heq hsymm.symm]
      rfl

theorem info_of_mem {info' : AccountInfo H} (h : ⟨a,info'⟩ ∈ s.accounts.entries) :
    s.info a = info' := by
  unfold info
  rw [AList.mem_lookup_iff.mpr h]
  rfl

theorem Accounted.getRep_iff {epoch : Epoch} (hs : s.Accounted epoch)
    (hepoch : epoch.toNat + 2 < 2 ^ 32) (a : H) {r : H} (hr : r ≠ 0) :
    (s.info a).getRepForEpoch (epoch + 1) = some r ↔ (s.info a).newRep.rep = r := by
  have hactive := hs.active a
  unfold AccountInfo.getRepForEpoch
  by_cases hzero : (s.info a).newRep.rep = 0
  · have hfallback := hs.fallback a hzero
    rw [if_neg fun hand => hand.1 hzero,hzero]
    refine ⟨fun hget => ?_,fun heq => absurd heq.symm hr⟩
    split at hget
    · rw [hfallback] at hget
      exact some.inj hget
    · cases hget
  · rw [if_pos ⟨hzero,by bv_omega⟩]
    exact some_inj

theorem Accounted.counted {epoch : Epoch} (hs : s.Accounted epoch)
    (hepoch : epoch.toNat + 2 < 2 ^ 32) {r : H} (hr : r ≠ 0) : s.Counted epoch r := by
  have hpower : ∀ ty,(((s.gov.nextPower r).get ty).toNat : ℤ) = s.contributions (fun _ => true) r ty :=
    hs.power r hr
  refine ⟨?_,?_,?_⟩
  · have hself := hpower .selfStake
    rw [contributions_stake (by simp) s r] at hself
    have hown : total (fun a f => if r = f.target ∧ .selfStake = stakeType a f.target then
        f.amount.toNat else 0) s.gov.stakes =
        amountAt (fun a f => if f.target = a then f.amount.toNat else 0) s.gov.stakes r := by
      rw [Table.total_eq_amountAt (k := r) fun c hc f => ?_]
      · unfold amountAt stakeType
        cases s.gov.stakes.lookup r with
        | none => rfl
        | some f =>
          simp only [map_some,getD_some]
          by_cases heq : f.target = r
          · rw [if_pos heq,if_pos heq,if_pos ⟨heq.symm,rfl⟩]
          · rw [if_neg heq,if_neg fun hand => heq hand.1.symm,if_neg heq]
      · refine if_neg fun hand => ?_
        obtain ⟨hr,hty⟩ := hand
        unfold stakeType at hty
        rw [← hr,if_neg (Ne.symm hc)] at hty
        cases hty
    rw [← hown]
    exact Int.ofNat.inj hself
  · have hlocked := hpower .lockedProxy
    rw [contributions_stake (by simp) s r] at hlocked
    refine (Int.ofNat.inj hlocked).trans (total_congr fun e _ => ?_)
    refine if_congr ?_ rfl rfl
    unfold stakeType
    constructor
    · rintro ⟨hr,hty⟩
      refine ⟨fun heq => ?_,hr.symm⟩
      rw [if_pos (hr.symm.trans heq.symm)] at hty
      cases hty
    · rintro ⟨hne,heq⟩
      refine ⟨heq.symm,?_⟩
      rw [if_neg fun heq' => hne (heq'.symm.trans heq)]
  · have hunlocked := hpower .unlockedProxy
    rw [contributions_unlocked hr s] at hunlocked
    refine (Int.ofNat.inj hunlocked).trans (total_congr fun e he => ?_)
    refine if_congr ?_ rfl rfl
    have hinfo := info_of_mem he
    have hget := hs.getRep_iff hepoch e.1 hr
    rw [hinfo] at hget
    exact hget.symm

end Counting

/-- The voting power for the next epoch is the own stake, the stakes directed at the representative,
and the available balances of the accounts it represents then. -/
theorem exec_counted {es : List (FundsEvent H)} {o : List Empty} {epoch : Epoch}
    (hs : s.Accounted epoch) (hepoch : epoch.toNat + 2 < 2 ^ 32)
    (hrun : Along (step cfg) (fun s e => e.epoch ≤ epoch ∧
      e.Traceable (s.gov.stakes.lookup e.origin) (s.info e.origin)) s es)
    (h : exec (step cfg) s es = some (s',o)) (r : H) (hr : r ≠ 0) : s'.Counted epoch r :=
  (exec_accounted hs hepoch hrun h).counted hepoch hr

theorem accounted_of_unstaked (hstakes : s.gov.stakes = ∅)
    (hpower : ∀ e ∈ s.gov.votingPower.entries,e.2.next = .zero)
    (haccounts : ∀ e ∈ s.accounts.entries,e.2.newRep = ⟨0,0⟩ ∧ e.2.oldRep.rep = 0 ∧
      e.2.availableBalance ≤ e.2.balance) (epoch : Epoch) : s.Accounted epoch := by
  have hinfo : ∀ a,(s.info a).newRep = ⟨0,0⟩ ∧ (s.info a).oldRep.rep = 0 ∧
      (s.info a).availableBalance ≤ (s.info a).balance := by
    intro a
    unfold info
    cases hl : s.accounts.lookup a with
    | none => exact ⟨rfl,rfl,BitVec.le_refl _⟩
    | some info' => exact haccounts ⟨a,info'⟩ (AList.mem_lookup_iff.mp hl)
  have hzero : s.contributions (fun _ => true) = 0 := by
    unfold contributions
    rw [hstakes,Table.total_empty,zero_add]
    refine total_eq_zero fun e he => ?_
    rw [if_pos rfl,(haccounts e he).1,unlocked_none]
  refine ⟨fun r hr ty => ?_,fun a f hf => ?_,fun a _ => (hinfo a).2.1,fun a => ?_,
    fun a => (hinfo a).2.2⟩
  · rw [hzero]
    cases hl : s.gov.votingPower.lookup r with
    | none => exact GovernanceStore.power_of_absent hl ty
    | some v =>
      rw [GovernanceStore.power_of_lookup hl,hpower ⟨r,v⟩ (AList.mem_lookup_iff.mp hl),
        VotingPowerSnapshot.get_zero]
      rfl
  · rw [hstakes] at hf
    cases hf
  · rw [(hinfo a).1]
    exact Nat.zero_le _

def registered : Holdings ℕ :=
  { sample with gov := { sample.gov with
    reps := AList.insert 2 ⟨0,0,20,0⟩ (AList.insert 3 ⟨0,0,30,0⟩ ∅) } }

theorem registered_accounted (epoch : Epoch) : registered.Accounted epoch :=
  accounted_of_unstaked rfl (by decide) (by decide) epoch

/-- Account 1 chooses account 2, is paid, moves stake to account 3 and takes out what has thawed. -/
def proxyRun : List (FundsEvent ℕ) :=
  [sampleEvent 10 (.stake 300 2),sampleEvent 10 (.setBalance 1500),sampleEvent 11 (.stake 100 3),
    sampleEvent 60 .pruneThawing]

theorem exec_counted_proxyRun :
    ∃ s' o,exec (step Config.sample) registered proxyRun = some (s',o) ∧ s'.Counted 60 3 ∧
      (s'.gov.nextPower 3).lockedProxied = 100 ∧ (s'.gov.nextPower 3).unlockedProxied = 1400 := by
  have hrun : (exec (step Config.sample) registered proxyRun).map (fun r =>
      decide ((r.1.gov.nextPower 3).lockedProxied = 100 ∧
        (r.1.gov.nextPower 3).unlockedProxied = 1400)) = some true := by decide +kernel
  obtain ⟨⟨s',o⟩,h,hpower⟩ := map_eq_some_iff.mp hrun
  have hsteps : checks (step Config.sample) (fun s e => decide (e.epoch ≤ 60 ∧
      e.Traceable (s.gov.stakes.lookup e.origin) (s.info e.origin))) registered proxyRun = true := by
    decide +kernel
  refine ⟨s',o,h,?_,of_decide_eq_true hpower⟩
  exact exec_counted (registered_accounted 60) (by decide)
    (by simpa using along_of_checks hsteps) h 3 (by decide)

/-- Account 1 chooses account 2 with stake and then account 3 without any. -/
def abandonRun : List (FundsEvent ℕ) :=
  [sampleEvent 10 (.stake 100 2),sampleEvent 11 (.stake 0 3)]

/-- A redirected stake of zero moves the available balance, but the representative stays. -/
theorem exec_miscounts :
    Along (step Config.sample) (fun s e => s.accepts Config.sample e = true ∧
        (2 : ℕ) ∈ s.gov.reps ∧ (3 : ℕ) ∈ s.gov.reps) registered abandonRun ∧
      ∃ s' o,exec (step Config.sample) registered abandonRun = some (s',o) ∧
        (s'.info 1).getRepForEpoch 12 = some 2 ∧ (s'.info 1).availableBalance = 900 ∧
        (s'.gov.nextPower 3).unlockedProxied = 900 ∧
        (s'.gov.nextPower 2).unlockedProxied = 0 ∧ ¬s'.Counted 11 2 ∧ ¬s'.Counted 11 3 := by
  have hsteps : checks (step Config.sample) (fun s e => decide (s.accepts Config.sample e = true ∧
      (2 : ℕ) ∈ s.gov.reps ∧ (3 : ℕ) ∈ s.gov.reps)) registered abandonRun = true := by decide +kernel
  have hrun : (exec (step Config.sample) registered abandonRun).map (fun r =>
      decide ((r.1.info 1).getRepForEpoch 12 = some 2 ∧ (r.1.info 1).availableBalance = 900 ∧
        (r.1.gov.nextPower 3).unlockedProxied = 900 ∧ (r.1.gov.nextPower 2).unlockedProxied = 0 ∧
        ¬r.1.Counted 11 2 ∧ ¬r.1.Counted 11 3)) = some true := by decide +kernel
  obtain ⟨⟨s',o⟩,h,hwrong⟩ := map_eq_some_iff.mp hrun
  exact ⟨by simpa using along_of_checks hsteps,s',o,h,of_decide_eq_true hwrong⟩

end Holdings

end LogosCore.Ledger
