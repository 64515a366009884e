import LogosCore.Claims
import LogosCore.ProRata

/-! # Reward pools

The pools of the representatives of an epoch are parts of the reward of the epoch, in proportion
to their stakes, and every harvest draws parts of a pool. The tables are determined by the pools at
the start, the stake drawn from each and the set of those opened so far. -/
namespace LogosCore.Ledger

variable {H : Type} [DecidableEq H] [Zero H]

open Finset Function Program EpochRewardsManager Rational

/-- The stake a pool stands for. -/
def GovernanceStore.poolStake (g : GovernanceStore H) (pool : H × Epoch) : ℕ :=
  ((g.rewards.lookup pool).map (·.totalStake.toNat)).getD 0

/-- Pools as they are before the first claim, and the rewards of their epochs. -/
structure GovernanceStore.PoolsReady (g : GovernanceStore H) : Prop where
  fresh : ∀ pool info,g.rewards.lookup pool = some info →
    info.initialized = false ∧ 0 < info.totalStake.toNat
  funded : ∀ pool info,g.rewards.lookup pool = some info →
    ∃ global,g.globalRewards.lookup pool.2 = some global ∧ 0 < global.totalReward.toNat ∧
      global.remainingReward = .ofNat global.totalReward.toNat
  staked : ∀ epoch global,g.globalRewards.lookup epoch = some global →
    ((g.rewards.keys.filter (·.2 = epoch)).map g.poolStake).sum ≤ global.totalStake.toNat

/-- A pool from which some of its stake has been drawn. -/
def RewardsInfo.drawn (info : RewardsInfo) (global : GlobalRewardsInfo) (n : ℕ) : RewardsInfo :=
  { info with
    initialized := true
    remainingReward := parts global.totalReward.toNat global.totalStake.toNat
      (info.totalStake.toNat - n)
    totalReward := parts global.totalReward.toNat global.totalStake.toNat info.totalStake.toNat }

/-- The reward of an epoch from which pools with the given stake have been taken. -/
def GlobalRewardsInfo.drawn (global : GlobalRewardsInfo) (n : ℕ) : GlobalRewardsInfo :=
  { global with
    remainingReward := parts global.totalReward.toNat global.totalStake.toNat
      (global.totalStake.toNat - n) }

def GovernanceStore.openedStake (g : GovernanceStore H) (opened : Finset (H × Epoch))
    (epoch : Epoch) : ℕ :=
  ∑ pool ∈ opened with pool.2 = epoch,g.poolStake pool

/-- The tables after some stake has been drawn from each of the opened pools. -/
structure Drawn (g0 : GovernanceStore H) (drawn : H × Epoch → ℕ) (opened : Finset (H × Epoch))
    (g : GovernanceStore H) : Prop where
  absent : ∀ pool,g0.rewards.lookup pool = none → g.rewards.lookup pool = none
  closed : ∀ pool,pool ∉ opened → g.rewards.lookup pool = g0.rewards.lookup pool ∧ drawn pool = 0
  pools : ∀ pool info global,g0.rewards.lookup pool = some info →
    g0.globalRewards.lookup pool.2 = some global → pool ∈ opened →
    g.rewards.lookup pool =
      if drawn pool < info.totalStake.toNat then some (info.drawn global (drawn pool)) else none
  globals : ∀ pool info global,g0.rewards.lookup pool = some info →
    g0.globalRewards.lookup pool.2 = some global → g.globalRewards.lookup pool.2 =
      if g0.openedStake opened pool.2 < global.totalStake.toNat then
        some (global.drawn (g0.openedStake opened pool.2)) else none
  stored : ∀ pool ∈ opened,pool ∈ g0.rewards
  bounded : ∀ pool,drawn pool ≤ g0.poolStake pool

variable {g0 g : GovernanceStore H} {pool : H × Epoch} {info : RewardsInfo}
  {global : GlobalRewardsInfo} {opened : Finset (H × Epoch)} {drawn : H × Epoch → ℕ}

theorem GovernanceStore.poolStake_eq (h : g.rewards.lookup pool = some info) :
    g.poolStake pool = info.totalStake.toNat := by
  simp [poolStake,h]

namespace GovernanceStore.PoolsReady

/-- Different pools of an epoch share its stake. -/
theorem openedStake_le {epoch : Epoch} (h : g.PoolsReady)
    (hstored : ∀ pool ∈ opened,pool ∈ g.rewards)
    (hglobal : g.globalRewards.lookup epoch = some global) :
    g.openedStake opened epoch ≤ global.totalStake.toNat := by
  refine le_trans ?_ (h.staked epoch global hglobal)
  have hnodup : (g.rewards.keys.filter (·.2 = epoch)).Nodup := (AList.keys_nodup _).filter _
  rw [← List.sum_toFinset _ hnodup]
  refine sum_le_sum_of_subset fun k hk => ?_
  obtain ⟨hmem,heq⟩ := mem_filter.mp hk
  simpa [heq] using AList.mem_keys.mp (hstored k hmem)

theorem openedStake_add_le (h : g.PoolsReady) (hstored : ∀ pool ∈ opened,pool ∈ g.rewards)
    (hinfo : g.rewards.lookup pool = some info)
    (hglobal : g.globalRewards.lookup pool.2 = some global) (hclosed : pool ∉ opened) :
    g.openedStake (insert pool opened) pool.2 = g.openedStake opened pool.2 + info.totalStake.toNat ∧
      g.openedStake opened pool.2 + info.totalStake.toNat ≤ global.totalStake.toNat := by
  have hsum : g.openedStake (insert pool opened) pool.2 =
      g.openedStake opened pool.2 + info.totalStake.toNat := by
    have hnot : pool ∉ opened.filter (·.2 = pool.2) := fun hmem =>
      hclosed (mem_filter.mp hmem).1
    simp only [openedStake,filter_insert,if_true,sum_insert hnot,poolStake_eq hinfo]
    omega
  have hstored' : ∀ k ∈ insert pool opened,k ∈ g.rewards := by
    intro k hk
    rcases mem_insert.mp hk with rfl | hk
    · exact AList.lookup_isSome.mp (by simp [hinfo])
    · exact hstored k hk
  have hle := h.openedStake_le hstored' hglobal
  exact ⟨hsum,by omega⟩

end GovernanceStore.PoolsReady

theorem Amount.toNat_mul_lt {n : ℕ} {a b : Amount} (h : n ≤ a.toNat) : n * b.toNat < 2 ^ 256 := by
  have hlt : a.toNat * b.toNat < 2 ^ 128 * 2 ^ 128 := Nat.mul_lt_mul'' a.isLt b.isLt
  exact (Nat.mul_le_mul_right _ h).trans_lt hlt

theorem Amount.toNat_lt (a : Amount) : a.toNat < 2 ^ 256 :=
  a.isLt.trans (by decide)

/-- The tables with a pool from which `n` of its stake has been drawn. -/
def GovernanceStore.withPool (g : GovernanceStore H) (pool : H × Epoch) (info : RewardsInfo)
    (global : GlobalRewardsInfo) (n : ℕ) : GovernanceStore H :=
  { g with
    rewards := if n < info.totalStake.toNat then g.rewards.insert pool (info.drawn global n)
      else g.rewards.erase pool }

def GovernanceStore.withGlobal (g : GovernanceStore H) (epoch : Epoch) (global : GlobalRewardsInfo)
    (n : ℕ) : GovernanceStore H :=
  { g with
    globalRewards := if n < global.totalStake.toNat then g.globalRewards.insert epoch (global.drawn n)
      else g.globalRewards.erase epoch }

theorem GovernanceStore.lookup_withPool (n : ℕ) (k : H × Epoch) :
    (g.withPool pool info global n).rewards.lookup k =
      if k = pool then if n < info.totalStake.toNat then some (info.drawn global n) else none
      else g.rewards.lookup k := by
  simp only [withPool]
  split
  · exact Table.lookup_insert_ite ..
  · exact Table.lookup_erase_ite ..

theorem GovernanceStore.lookup_withGlobal (n : ℕ) (epoch e : Epoch) :
    (g.withGlobal epoch global n).globalRewards.lookup e =
      if e = epoch then if n < global.totalStake.toNat then some (global.drawn n) else none
      else g.globalRewards.lookup e := by
  simp only [withGlobal]
  split
  · exact Table.lookup_insert_ite ..
  · exact Table.lookup_erase_ite ..

section Harvest

variable (hreward : 0 < global.totalReward.toNat) (hstake : 0 < global.totalStake.toNat)

include hreward hstake

theorem harvestReward_run (rep : H) (epoch : Epoch) {d n : ℕ} (hle : d + n ≤ info.totalStake.toNat) :
    (harvestReward rep epoch (parts global.totalReward.toNat global.totalStake.toNat n)
      (info.drawn global d)).run g = .ok ((),g.withPool (rep,epoch) info global (d + n)) := by
  have hlt : (info.drawn global d).remainingReward.lt
      (parts global.totalReward.toNat global.totalStake.toNat n) = false := by
    simp only [RewardsInfo.drawn,parts_lt hreward hstake,decide_eq_false_iff_not]
    omega
  have hsub : (info.drawn global d).remainingReward.sub
      (parts global.totalReward.toNat global.totalStake.toNat n) =
        (info.drawn global (d + n)).remainingReward := by
    simp only [RewardsInfo.drawn,Nat.sub_add_eq]
    exact sub_parts hstake (Amount.toNat_lt _) (by omega) (Amount.toNat_mul_lt (Nat.sub_le _ _))
  have hpos : Rational.zero.lt (info.drawn global (d + n)).remainingReward =
      decide (d + n < info.totalStake.toNat) := by
    simp only [RewardsInfo.drawn,zero_lt_parts hreward hstake,decide_eq_decide]
    omega
  have hsame : { info.drawn global d with remainingReward :=
      (info.drawn global (d + n)).remainingReward } = info.drawn global (d + n) := rfl
  simp only [harvestReward,hlt,hsub,hpos,hsame,Bool.false_eq_true,if_false,decide_eq_true_eq,
    GovernanceStore.withPool]
  split <;> rfl

theorem harvestGlobalReward_run (epoch : Epoch) {d n : ℕ} (hle : d + n ≤ global.totalStake.toNat) :
    (harvestGlobalReward epoch (parts global.totalReward.toNat global.totalStake.toNat n)
      (global.drawn d)).run g = .ok ((),g.withGlobal epoch global (d + n)) := by
  have hlt : (global.drawn d).remainingReward.lt
      (parts global.totalReward.toNat global.totalStake.toNat n) = false := by
    simp only [GlobalRewardsInfo.drawn,parts_lt hreward hstake,decide_eq_false_iff_not]
    omega
  have hsub : (global.drawn d).remainingReward.sub
      (parts global.totalReward.toNat global.totalStake.toNat n) =
        (global.drawn (d + n)).remainingReward := by
    simp only [GlobalRewardsInfo.drawn,Nat.sub_add_eq]
    exact sub_parts hstake (Amount.toNat_lt _) (by omega) (Amount.toNat_mul_lt (Nat.sub_le _ _))
  have hpos : Rational.zero.lt (global.drawn (d + n)).remainingReward =
      decide (d + n < global.totalStake.toNat) := by
    simp only [GlobalRewardsInfo.drawn,zero_lt_parts hreward hstake,decide_eq_decide]
    omega
  have hsame : { global.drawn d with remainingReward :=
      (global.drawn (d + n)).remainingReward } = global.drawn (d + n) := rfl
  simp only [harvestGlobalReward,hlt,hsub,hpos,hsame,Bool.false_eq_true,if_false,decide_eq_true_eq,
    GovernanceStore.withGlobal]
  split <;> rfl

/-- A pool is opened with its share of the reward of the epoch. -/
theorem determineRewards_run {epoch : Epoch} {d : ℕ} (hfresh : info.initialized = false)
    (hlookup : g.globalRewards.lookup epoch = some (global.drawn d))
    (hle : d + info.totalStake.toNat ≤ global.totalStake.toNat) :
    (determineRewards epoch info).run g =
      .ok (info.drawn global 0,g.withGlobal epoch global (d + info.totalStake.toNat)) := by
  have hquota : Rational.make info.totalStake.toNat global.totalStake.toNat =
      some (ofRat (info.totalStake.toNat / global.totalStake.toNat)) := make_natCast _ hstake
  have hpool : (ofRat (info.totalStake.toNat / global.totalStake.toNat)).mul
      (.ofNat global.totalReward.toNat) =
        parts global.totalReward.toNat global.totalStake.toNat info.totalStake.toNat :=
    share_mul_whole hstake (Amount.toNat_lt _) (Amount.toNat_lt _) (Amount.toNat_mul_lt le_rfl)
  have hstakes : (global.drawn d).totalStake = global.totalStake := rfl
  have hrewards : (global.drawn d).totalReward = global.totalReward := rfl
  simp only [determineRewards,hfresh,Bool.false_eq_true,if_false,StateT.run_bind,StateT.run_get,
    pure_bind,hlookup,hstakes,hrewards,hquota,run_need_some,hpool,
    harvestGlobalReward_run hreward hstake epoch hle]
  rfl

theorem harvestEpoch_run {origin rep : H} {st : ClaimStatus H} {sum : Rational} {epoch : Epoch}
    {d n : ℕ} {stored : RewardsInfo} {g' : GovernanceStore H}
    (hrep : (if st.isRep then origin else st.rep) = rep)
    (hlookup : g.rewards.lookup (rep,epoch) = some stored)
    (hopen : (determineRewards epoch stored).run g = .ok (info.drawn global d,g'))
    (hpos : 0 < info.totalStake.toNat) (hn : (st.shareStake info).toNat = n)
    (hle : d + n ≤ info.totalStake.toNat) :
    (harvestEpoch origin st sum epoch).run g =
      .ok (sum.add (parts global.totalReward.toNat global.totalStake.toNat n),
        g'.withPool (rep,epoch) info global (d + n)) := by
  have hshare : st.shareStake (info.drawn global d) = st.shareStake info := rfl
  have hstakes : (info.drawn global d).totalStake = info.totalStake := rfl
  have htotal : (info.drawn global d).totalReward =
      parts global.totalReward.toNat global.totalStake.toNat info.totalStake.toNat := rfl
  have hmake : Rational.make n info.totalStake.toNat = some (ofRat (n / info.totalStake.toNat)) :=
    make_natCast n hpos
  have hpart : (ofRat (n / info.totalStake.toNat)).mul
      (parts global.totalReward.toNat global.totalStake.toNat info.totalStake.toNat) =
        parts global.totalReward.toNat global.totalStake.toNat n :=
    share_mul_parts hstake (Amount.toNat_lt _) hpos
      (Amount.toNat_mul_lt (a := info.totalStake) (by omega))
  subst hrep
  simp only [harvestEpoch,StateT.run_bind,StateT.run_get,pure_bind,hlookup,hopen]
  have hok : ∀ {α β : Type} (a : α) (f : α → Except Halt β),(Except.ok a >>= f) = f a :=
    fun _ _ => rfl
  simp only [hok,hshare,hn,hstakes,hmake,run_need_some,pure_bind,htotal,hpart,
    harvestReward_run hreward hstake _ epoch hle]
  rfl

end Harvest

theorem GovernanceStore.openedStake_insert_of_ne {epoch : Epoch} (h : pool.2 ≠ epoch) :
    g.openedStake (insert pool opened) epoch = g.openedStake opened epoch := by
  simp only [openedStake,filter_insert,if_neg h]

namespace Drawn

theorem advance {g' : GovernanceStore H} {n : ℕ} (h : Drawn g0 drawn opened g)
    (hinfo : g0.rewards.lookup pool = some info)
    (hglobal : g0.globalRewards.lookup pool.2 = some global) (hle : n ≤ info.totalStake.toNat)
    (hrewards : ∀ k,g'.rewards.lookup k =
      if k = pool then if n < info.totalStake.toNat then some (info.drawn global n) else none
      else g.rewards.lookup k)
    (hglobals : ∀ epoch,g'.globalRewards.lookup epoch = if epoch = pool.2 then
        if g0.openedStake (insert pool opened) epoch < global.totalStake.toNat then
          some (global.drawn (g0.openedStake (insert pool opened) epoch)) else none
      else g.globalRewards.lookup epoch) :
    Drawn g0 (Function.update drawn pool n) (insert pool opened) g' where
  absent k hk := by
    have hne : k ≠ pool := by
      rintro rfl
      rw [hinfo] at hk
      cases hk
    rw [hrewards,if_neg hne]
    exact h.absent k hk
  closed k hk := by
    obtain ⟨hne,hnot⟩ := not_or.mp fun hor => hk (mem_insert.mpr hor)
    rw [hrewards,if_neg hne,update_of_ne hne]
    exact h.closed k hnot
  pools k info' global' hinfo' hglobal' hk := by
    rw [hrewards]
    by_cases heq : k = pool
    · subst heq
      cases hinfo.symm.trans hinfo'
      cases hglobal.symm.trans hglobal'
      rw [if_pos rfl,update_self]
    · rw [if_neg heq,update_of_ne heq]
      exact h.pools k info' global' hinfo' hglobal' ((mem_insert.mp hk).resolve_left heq)
  globals k info' global' hinfo' hglobal' := by
    rw [hglobals]
    by_cases heq : k.2 = pool.2
    · rw [heq] at hglobal' ⊢
      cases hglobal.symm.trans hglobal'
      rw [if_pos rfl]
    · rw [if_neg heq,GovernanceStore.openedStake_insert_of_ne (Ne.symm heq)]
      exact h.globals k info' global' hinfo' hglobal'
  stored k hk := by
    rcases mem_insert.mp hk with rfl | hk
    · exact AList.lookup_isSome.mp (by simp [hinfo])
    · exact h.stored k hk
  bounded k := by
    by_cases heq : k = pool
    · subst heq
      rw [update_self,GovernanceStore.poolStake_eq hinfo]
      exact hle
    · rw [update_of_ne heq]
      exact h.bounded k

variable {origin : H} {st : ClaimStatus H} {epoch : Epoch} {rep : H} {n : ℕ}

/-- A harvest draws its share from the pool, which the first one opens. -/
theorem harvest (h : Drawn g0 drawn opened g) (hready : g0.PoolsReady)
    (hrep : (if st.isRep then origin else st.rep) = rep)
    (hinfo : g0.rewards.lookup (rep,epoch) = some info)
    (hglobal : g0.globalRewards.lookup epoch = some global)
    (hn : (st.shareStake info).toNat = n) (hle : drawn (rep,epoch) + n ≤ info.totalStake.toNat)
    (sum : Rational) : ∃ sum' g',(harvestEpoch origin st sum epoch).run g = .ok (sum',g') ∧
      Drawn g0 (Function.update drawn (rep,epoch) (drawn (rep,epoch) + n))
        (insert (rep,epoch) opened) g' ∧
      (sum' = sum.add (parts global.totalReward.toNat global.totalStake.toNat n) ∨
        n = 0 ∧ sum' = sum) := by
  obtain ⟨hfresh,hpos⟩ := hready.fresh _ _ hinfo
  obtain ⟨global',hglobal',hreward,-⟩ := hready.funded _ _ hinfo
  cases hglobal.symm.trans hglobal'
  have hstake : 0 < global.totalStake.toNat := by
    have hall := hready.openedStake_add_le (fun k hk => absurd hk (notMem_empty k)) hinfo
      hglobal (notMem_empty _)
    omega
  by_cases hopen : (rep,epoch) ∈ opened
  · have hstored := h.pools _ _ _ hinfo hglobal hopen
    by_cases hd : drawn (rep,epoch) < info.totalStake.toNat
    · rw [if_pos hd] at hstored
      have hopened : (determineRewards epoch (info.drawn global (drawn (rep,epoch)))).run g =
          .ok (info.drawn global (drawn (rep,epoch)),g) := rfl
      refine ⟨_,_,harvestEpoch_run hreward hstake hrep hstored hopened hpos hn hle,?_,.inl rfl⟩
      refine h.advance hinfo hglobal hle (GovernanceStore.lookup_withPool _) fun e => ?_
      rw [insert_eq_of_mem hopen]
      split
      · next heq =>
        subst heq
        exact h.globals _ _ _ hinfo hglobal
      · rfl
    · rw [if_neg hd] at hstored
      have hzero : n = 0 := by omega
      have hrun : (harvestEpoch origin st sum epoch).run g = .ok (sum,g) := by
        subst hrep
        simp only [harvestEpoch,StateT.run_bind,StateT.run_get,pure_bind,hstored]
        rfl
      refine ⟨sum,g,hrun,?_,.inr ⟨hzero,rfl⟩⟩
      rwa [hzero,Nat.add_zero,update_eq_self,insert_eq_of_mem hopen]
  · obtain ⟨hclosed,hnone⟩ := h.closed _ hopen
    obtain ⟨hinsert,hfits⟩ := hready.openedStake_add_le h.stored hinfo hglobal hopen
    have hleft := h.globals _ _ _ hinfo hglobal
    rw [if_pos (by omega)] at hleft
    rw [hnone] at hle ⊢
    refine ⟨_,_,harvestEpoch_run hreward hstake hrep (hclosed.trans hinfo)
      (determineRewards_run hreward hstake hfresh hleft hfits) hpos hn hle,?_,.inl rfl⟩
    refine h.advance hinfo hglobal hle (GovernanceStore.lookup_withPool _) fun e => ?_
    refine (GovernanceStore.lookup_withGlobal _ epoch e).trans ?_
    split
    · next heq =>
      subst heq
      rw [hinsert]
    · rfl

end Drawn

end LogosCore.Ledger
