import LogosCore.RewardPools

/-! # Solvency of the reward pools

Many accounts claim from the same pools, in any order. Where no levy is above one hundred percent,
what the accounts of a representative can draw together is no more than its stake, and then no
claim finds a pool short. -/
namespace LogosCore.Ledger

variable {H : Type} [DecidableEq H] [Zero H]

open Finset Option Program EpochRewardsManager Rational Check

/-- The representative from whose pool the account is paid. -/
def Standing.pool (origin : H) : Standing H → Option H
  | .idle => none
  | .proxied rep _ => some rep
  | .representative => some origin

def Standing.status : Standing H → ClaimStatus H
  | .idle => ⟨false,0,0⟩
  | .proxied rep amount => ⟨false,rep,amount⟩
  | .representative => ⟨true,0,0⟩

def Standing.lockedWith (rep : H) : Standing H → ℕ
  | .proxied rep' amount => if rep' = rep then amount.toNat else 0
  | _ => 0

/-- The accounts that claim and the tables they claim from. -/
structure ClaimBook (H : Type) where
  gov : GovernanceStore H
  infos : Table H (AccountInfo H)

structure ClaimRequest (H : Type) where
  origin : H
  epochHash : H
  epochNumber : Epoch

namespace ClaimBook

variable (s : ClaimBook H)

def claimant (info : AccountInfo H) : Claimant H := ⟨s.gov,info⟩

/-- An accepted claim; the output is the account with the epochs it is paid for. -/
def step (s : ClaimBook H) (c : ClaimRequest H) : Option (ClaimBook H × List (H × Epoch)) :=
  match s.infos.lookup c.origin with
  | none => some (s,[])
  | some info =>
    if (validateClaim s.gov c.epochHash c.epochNumber (.user info)).Accepts () then
      match (collectReward c.origin c.epochNumber info).run s.gov with
      | .error _ => none
      | .ok r => some (⟨r.2,s.infos.insert c.origin r.1.2⟩,
          ((s.claimant info).payments c.epochNumber).map fun p => (c.origin,p.1))
    else some (s,[])

def subchain (account : H) : List (Request H) :=
  ((s.infos.lookup account).map fun info => (s.claimant info).governanceSubchain).getD []

def standing (account : H) (epoch : Epoch) : Standing H := standingIn (s.subchain account) epoch

/-- The part of the stake of a pool that is an account's to draw. -/
def share (account : H) (pool : H × Epoch) : ℕ :=
  if (s.standing account pool.2).pool account = some pool.1 then
    ((s.gov.rewards.lookup pool).map fun info =>
      ((s.standing account pool.2).status.shareStake info).toNat).getD 0
  else 0

/-- The reward of the pool of a representative: its share of the reward of the epoch. -/
def poolReward (pool : H × Epoch) : ℚ :=
  ((s.gov.globalRewards.lookup pool.2).map fun global =>
    (s.gov.poolStake pool * global.totalReward.toNat / global.totalStake.toNat : ℚ)).getD 0

def reward (account : H) (pool : H × Epoch) : ℚ :=
  s.share account pool / s.gov.poolStake pool * s.poolReward pool

/-- The pool from which an account is paid for an epoch, if there is one. -/
def poolOf (x : H × Epoch) : Option (H × Epoch) :=
  ((s.standing x.1 x.2).pool x.1).bind fun rep =>
    if (rep,x.2) ∈ s.gov.rewards then some (rep,x.2) else none

/-- The pools that the claims so far have opened. -/
def opened (log : List (H × Epoch)) : Finset (H × Epoch) := (log.filterMap s.poolOf).toFinset

def drawnFrom (log : List (H × Epoch)) (pool : H × Epoch) : ℕ :=
  ((log.filter (·.2 = pool.2)).map fun x => s.share x.1 pool).sum

def harvested (log : List (H × Epoch)) (pool : H × Epoch) : ℚ :=
  ((log.filter (·.2 = pool.2)).map fun x => s.reward x.1 pool).sum

/-- No claim has been made yet: the stake of a pool is that of its representative and what is locked
with it, no levy is above one hundred, and the subchains are whole. -/
structure Ready : Prop where
  pools : s.gov.PoolsReady
  levies : ∀ pool info,s.gov.rewards.lookup pool = some info → info.levyPercentage.toNat ≤ 100
  delegators : ∀ pool info,s.gov.rewards.lookup pool = some info → info.selfStake.toNat +
      (s.infos.keys.map fun a => (s.standing a pool.2).lockedWith pool.1).sum ≤
        info.totalStake.toNat
  intact : ∀ account info,s.infos.lookup account = some info →
    s.gov.Intact (s.gov.requests.entries.length + 1) info.governanceSubchainHead

/-- A common denominator of the rewards of some epochs. -/
def divisor (epochs : List Epoch) : ℕ :=
  epochs.foldr (fun e k => ((s.gov.globalRewards.lookup e).elim 1 fun global =>
    global.totalStake.toNat).lcm k) 1

def totalReward (epochs : List Epoch) : ℕ :=
  (epochs.map fun e => (s.gov.globalRewards.lookup e).elim 0 fun global =>
    global.totalReward.toNat).sum

/-- The rewards of some epochs add up within 256 bits. -/
def Fits (epochs : List Epoch) : Prop :=
  0 < s.divisor epochs ∧ s.divisor epochs < 2 ^ 256 ∧
    s.totalReward epochs * s.divisor epochs < 2 ^ 256

instance (epochs : List Epoch) : Decidable (s.Fits epochs) :=
  inferInstanceAs (Decidable (_ ∧ _ ∧ _))

/-- A claim without a locked proxy after the end of a term, whose sum fits. -/
def Payable (s0 s : ClaimBook H) (c : ClaimRequest H) : Prop :=
  ∀ info ∈ s.infos.lookup c.origin,
    (validateClaim s.gov c.epochHash c.epochNumber (.user info)).Accepts () →
    ClearStops (s.subchain c.origin) info.claimEpoch c.epochNumber ∧
    s0.Fits (((s.claimant info).payments c.epochNumber).map (·.1)) ∧
    c.epochNumber ≠ BitVec.allOnes 32

instance (s0 s : ClaimBook H) (c : ClaimRequest H) : Decidable (s0.Payable s c) :=
  Option.decidableForallMem ..

/-- Rewards stay within their pool and pools within their epoch, and the rest remains. -/
structure Solvent (log : List (H × Epoch)) (s' : ClaimBook H) : Prop where
  pools : ∀ pool ∈ s.gov.rewards,s.harvested log pool ≤ s.poolReward pool
  epochs : ∀ epoch global,s.gov.globalRewards.lookup epoch = some global →
    ∑ pool ∈ s.opened log with pool.2 = epoch,s.poolReward pool ≤ global.totalReward.toNat
  remaining : ∀ pool ∈ s.opened log,
    (s'.gov.rewards.lookup pool = none ∧ s.harvested log pool = s.poolReward pool) ∨
    ∃ info,s'.gov.rewards.lookup pool = some info ∧ info.totalReward = ofRat (s.poolReward pool) ∧
      info.remainingReward = ofRat (s.poolReward pool - s.harvested log pool)
  remainingGlobal : ∀ pool ∈ s.gov.rewards,∀ global,
    s.gov.globalRewards.lookup pool.2 = some global →
    (s'.gov.globalRewards.lookup pool.2 = none ∧
      ∑ k ∈ s.opened log with k.2 = pool.2,s.poolReward k = global.totalReward.toNat) ∨
    ∃ global',s'.gov.globalRewards.lookup pool.2 = some global' ∧
      global'.remainingReward = ofRat (global.totalReward.toNat -
        ∑ k ∈ s.opened log with k.2 = pool.2,s.poolReward k)

end ClaimBook

/-! ## Shares of a pool -/

section Shares

variable {st : ClaimStatus H} {standing : Standing H} {origin : H} {info : RewardsInfo}

theorem Standing.Pays.pool (h : standing.Pays st) :
    standing.pool origin = some (if st.isRep then origin else st.rep) := by
  cases standing with
  | idle => exact h.elim
  | proxied rep amount =>
    have hst : st = ⟨false,rep,amount⟩ := h
    simp [Standing.pool,hst]
  | representative => simp [Standing.pool,h.1]

theorem Standing.Pays.shareStake (h : standing.Pays st) :
    st.shareStake info = standing.status.shareStake info := by
  cases standing with
  | idle => exact h.elim
  | proxied rep amount =>
    have hst : st = ⟨false,rep,amount⟩ := h
    rw [hst]
    rfl
  | representative => simp [ClaimStatus.shareStake,Standing.status,h.1]

variable (hlevy : info.levyPercentage.toNat ≤ 100)

include hlevy

theorem toNat_shareStake_proxied (rep : H) (amount : Amount) :
    ((⟨false,rep,amount⟩ : ClaimStatus H).shareStake info).toNat =
      amount.toNat * info.levyPercentage.toNat / 100 := by
  have hle : amount.toNat * info.levyPercentage.toNat ≤ amount.toNat * 100 :=
    Nat.mul_le_mul_left _ hlevy
  have h1 : amount.toNat % 2 ^ 256 = amount.toNat := Nat.mod_eq_of_lt (by omega)
  have h2 : info.levyPercentage.toNat % 2 ^ 256 = info.levyPercentage.toNat :=
    Nat.mod_eq_of_lt (by omega)
  have h3 : amount.toNat * info.levyPercentage.toNat % 2 ^ 256 =
      amount.toNat * info.levyPercentage.toNat := Nat.mod_eq_of_lt (by omega)
  have h4 : amount.toNat * info.levyPercentage.toNat / 100 % 2 ^ 128 =
      amount.toNat * info.levyPercentage.toNat / 100 := Nat.mod_eq_of_lt (by omega)
  have h5 : (100 : BitVec 256).toNat = 100 := rfl
  simp only [ClaimStatus.shareStake,Bool.false_eq_true,if_false,BitVec.toNat_setWidth,
    BitVec.toNat_udiv,BitVec.toNat_mul,h1,h2,h3,h4,h5]

theorem toNat_shareStake_representative (hself : info.selfStake.toNat ≤ info.totalStake.toNat) :
    ((⟨true,0,0⟩ : ClaimStatus H).shareStake info).toNat =
      info.selfStake.toNat + (100 - info.levyPercentage.toNat) *
        (info.totalStake.toNat - info.selfStake.toNat) / 100 := by
  have hle : (100 - info.levyPercentage.toNat) * (info.totalStake.toNat - info.selfStake.toNat) ≤
      100 * (info.totalStake.toNat - info.selfStake.toNat) :=
    Nat.mul_le_mul_right _ (Nat.sub_le _ _)
  have h1 : (info.totalStake - info.selfStake).toNat =
      info.totalStake.toNat - info.selfStake.toNat := BitVec.toNat_sub_of_le hself
  have h2 : (info.totalStake.toNat - info.selfStake.toNat) % 2 ^ 256 =
      info.totalStake.toNat - info.selfStake.toNat := Nat.mod_eq_of_lt (by omega)
  have h3 : ((100 : BitVec 256) - info.levyPercentage.setWidth 256).toNat =
      100 - info.levyPercentage.toNat := by bv_omega
  have h4 : (100 - info.levyPercentage.toNat) * (info.totalStake.toNat - info.selfStake.toNat) %
      2 ^ 256 = (100 - info.levyPercentage.toNat) * (info.totalStake.toNat - info.selfStake.toNat) :=
    Nat.mod_eq_of_lt (by omega)
  have h5 : (100 : BitVec 256).toNat = 100 := rfl
  have h6 : info.selfStake.toNat % 2 ^ 256 = info.selfStake.toNat := Nat.mod_eq_of_lt (by omega)
  simp only [ClaimStatus.shareStake,if_true,BitVec.toNat_setWidth,BitVec.toNat_add,
    BitVec.toNat_udiv,BitVec.toNat_mul,h1,h2,h3,h4,h5,h6]
  rw [Nat.mod_eq_of_lt (by omega),Nat.mod_eq_of_lt (by omega)]

end Shares

namespace ClaimBook

variable {s : ClaimBook H} {account : H} {pool : H × Epoch} {info : RewardsInfo}

theorem share_le (hready : s.Ready) (hinfo : s.gov.rewards.lookup pool = some info)
    (account : H) : s.share account pool ≤
      (if account = pool.1 then info.selfStake.toNat + (100 - info.levyPercentage.toNat) *
        (info.totalStake.toNat - info.selfStake.toNat) / 100 else 0) +
      (s.standing account pool.2).lockedWith pool.1 * info.levyPercentage.toNat / 100 := by
  have hlevy := hready.levies _ _ hinfo
  have hself : info.selfStake.toNat ≤ info.totalStake.toNat := by
    have := hready.delegators _ _ hinfo
    omega
  unfold share
  split
  · next hpool =>
    cases hstanding : s.standing account pool.2 with
    | idle =>
      rw [hstanding] at hpool
      cases hpool
    | proxied rep amount =>
      rw [hstanding] at hpool
      cases hpool
      simp only [hinfo,map_some,getD_some,Standing.status,Standing.lockedWith,if_true,
        toNat_shareStake_proxied hlevy]
      exact Nat.le_add_left _ _
    | representative =>
      rw [hstanding] at hpool
      cases hpool
      simp only [hinfo,map_some,getD_some,Standing.status,if_true,
        toNat_shareStake_representative hlevy hself]
      exact Nat.le_add_right _ _
  · exact Nat.zero_le _

theorem sum_share_le (hready : s.Ready) (hinfo : s.gov.rewards.lookup pool = some info) :
    ∑ a ∈ s.infos.keys.toFinset,s.share a pool ≤ info.totalStake.toNat := by
  have hlevy := hready.levies _ _ hinfo
  have hlocked := hready.delegators _ _ hinfo
  rw [← List.sum_toFinset _ (AList.keys_nodup _)] at hlocked
  generalize hx : info.totalStake.toNat - info.selfStake.toNat = x
  generalize hl : info.levyPercentage.toNat = l at *
  have hsum := sum_le_sum fun a (_ : a ∈ s.infos.keys.toFinset) => share_le hready hinfo a
  rw [hx,hl,sum_add_distrib] at hsum
  have hown : (∑ a ∈ s.infos.keys.toFinset,
      if a = pool.1 then info.selfStake.toNat + (100 - l) * x / 100 else 0) ≤
        info.selfStake.toNat + (100 - l) * x / 100 := by
    rw [sum_ite_eq']
    split
    · exact le_rfl
    · exact Nat.zero_le _
  have hlevied : 100 * ∑ a ∈ s.infos.keys.toFinset,
      (s.standing a pool.2).lockedWith pool.1 * l / 100 ≤
        (∑ a ∈ s.infos.keys.toFinset,(s.standing a pool.2).lockedWith pool.1) * l := by
    rw [mul_sum,sum_mul]
    exact sum_le_sum fun a _ => Nat.mul_div_le _ _
  have hproxied : (∑ a ∈ s.infos.keys.toFinset,(s.standing a pool.2).lockedWith pool.1) * l ≤ x * l :=
    Nat.mul_le_mul_right l (by omega)
  have hsplit : (100 - l) * x + x * l = 100 * x := by
    rw [Nat.sub_mul,mul_comm x l]
    have := Nat.mul_le_mul_right x hlevy
    omega
  omega

section Log

variable {log : List (H × Epoch)} {x : H × Epoch}

theorem drawnFrom_append (log : List (H × Epoch)) (x pool : H × Epoch) :
    s.drawnFrom (log ++ [x]) pool =
      s.drawnFrom log pool + if x.2 = pool.2 then s.share x.1 pool else 0 := by
  unfold drawnFrom
  by_cases h : x.2 = pool.2
  · simp [List.filter_append,h]
  · simp [List.filter_append,h]

/-- Accounts that are paid once cannot have drawn more than the stake of a pool. -/
theorem drawnFrom_le (hready : s.Ready) (hinfo : s.gov.rewards.lookup pool = some info)
    (hnodup : log.Nodup) (hmem : ∀ x ∈ log,x.1 ∈ s.infos) :
    s.drawnFrom log pool ≤ info.totalStake.toNat := by
  refine le_trans ?_ (sum_share_le hready hinfo)
  have hinj : ((log.filter (·.2 = pool.2)).map (·.1)).Nodup := by
    refine (List.nodup_map_iff_inj_on (hnodup.filter _)).mpr ?_
    intro y hy z hz heq
    have hy' := (List.mem_filter.mp hy).2
    have hz' := (List.mem_filter.mp hz).2
    simp only [decide_eq_true_eq] at hy' hz'
    exact Prod.ext heq (hy'.trans hz'.symm)
  have hsum : s.drawnFrom log pool =
      ∑ a ∈ ((log.filter (·.2 = pool.2)).map (·.1)).toFinset,s.share a pool := by
    rw [List.sum_toFinset _ hinj,List.map_map]
    rfl
  rw [hsum]
  refine sum_le_sum_of_subset fun a ha => ?_
  obtain ⟨y,hy,rfl⟩ := List.mem_map.mp (List.mem_toFinset.mp ha)
  exact List.mem_toFinset.mpr (AList.mem_keys.mp (hmem y (List.mem_filter.mp hy).1))

theorem opened_append_some (h : s.poolOf x = some pool) :
    s.opened (log ++ [x]) = insert pool (s.opened log) := by
  simp [opened,h]

theorem opened_append_none (h : s.poolOf x = none) : s.opened (log ++ [x]) = s.opened log := by
  simp [opened,h]

end Log

/-! ## A claim -/

section Claim

variable {g : GovernanceStore H} {log : List (H × Epoch)} {epoch : Epoch} {st : ClaimStatus H}

theorem poolOf_eq (hpays : (s.standing account epoch).Pays st) :
    s.poolOf (account,epoch) = if (if st.isRep then account else st.rep,epoch) ∈ s.gov.rewards then
        some (if st.isRep then account else st.rep,epoch) else none := by
  simp only [poolOf,hpays.pool,bind_some]

/-- An account draws from no other pool of the epoch. -/
theorem share_eq_zero (hpays : (s.standing account pool.2).Pays st)
    (hne : (if st.isRep then account else st.rep) ≠ pool.1) : s.share account pool = 0 := by
  simp only [share,hpays.pool,some.injEq,if_neg hne]

theorem share_eq (hpays : (s.standing account epoch).Pays st)
    (hinfo : s.gov.rewards.lookup (if st.isRep then account else st.rep,epoch) = some info) :
    s.share account (if st.isRep then account else st.rep,epoch) = (st.shareStake info).toNat := by
  simp only [share,hpays.pool,if_true,hinfo,map_some,getD_some,hpays.shareStake]

/-- One payment of a claim. -/
theorem harvest_drawn (hready : s.Ready) (hpays : (s.standing account epoch).Pays st)
    (hnodup : (log ++ [(account,epoch)]).Nodup)
    (hmem : ∀ x ∈ log ++ [(account,epoch)],x.1 ∈ s.infos)
    (hdrawn : Drawn s.gov (s.drawnFrom log) (s.opened log) g) (sum : Rational) :
    ∃ sum' g',(harvestEpoch account st sum epoch).run g = .ok (sum',g') ∧
      Drawn s.gov (s.drawnFrom (log ++ [(account,epoch)])) (s.opened (log ++ [(account,epoch)])) g' ∧
      (sum' = sum ∨ ∃ global n,s.gov.globalRewards.lookup epoch = some global ∧
        0 < global.totalStake.toNat ∧ n ≤ global.totalStake.toNat ∧
        sum' = sum.add (parts global.totalReward.toNat global.totalStake.toNat n)) := by
  have hpool := poolOf_eq hpays
  generalize hrep : (if st.isRep then account else st.rep) = rep at hpool
  cases hinfo : s.gov.rewards.lookup (rep,epoch) with
  | none =>
    have hnot : (rep,epoch) ∉ s.gov.rewards := AList.lookup_eq_none.mp hinfo
    rw [if_neg hnot] at hpool
    have hrun : (harvestEpoch account st sum epoch).run g = .ok (sum,g) := by
      have habsent := hdrawn.absent _ hinfo
      subst hrep
      simp only [harvestEpoch,StateT.run_bind,StateT.run_get,pure_bind,habsent]
      rfl
    have hsame : s.drawnFrom (log ++ [(account,epoch)]) = s.drawnFrom log := by
      funext k
      rw [drawnFrom_append]
      split
      · next hepoch =>
        have hzero : s.share account k = 0 := by
          by_cases hk : rep = k.1
          · have hmissing : s.gov.rewards.lookup k = none := by
              rw [← hinfo,hk,show epoch = k.2 from hepoch]
            simp [share,hmissing]
          · subst hepoch
            exact share_eq_zero hpays (by rwa [hrep])
        rw [hzero,Nat.add_zero]
      · rfl
    refine ⟨sum,g,hrun,?_,.inl rfl⟩
    rwa [hsame,opened_append_none hpool]
  | some info =>
    have hin : (rep,epoch) ∈ s.gov.rewards := AList.lookup_isSome.mp (by simp [hinfo])
    rw [if_pos hin] at hpool
    obtain ⟨global,hglobal,-,-⟩ := hready.pools.funded _ _ hinfo
    have hshare : (st.shareStake info).toNat = s.share account (rep,epoch) := by
      subst hrep
      exact (share_eq hpays hinfo).symm
    have hafter : s.drawnFrom (log ++ [(account,epoch)]) = Function.update (s.drawnFrom log)
        (rep,epoch) (s.drawnFrom log (rep,epoch) + s.share account (rep,epoch)) := by
      funext k
      rw [drawnFrom_append]
      by_cases hk : k = (rep,epoch)
      · subst hk
        rw [Function.update_self,if_pos rfl]
      · rw [Function.update_of_ne hk]
        split
        · next hepoch =>
          subst hepoch
          have hne : rep ≠ k.1 := fun heq => hk (Prod.ext heq.symm rfl)
          rw [share_eq_zero hpays (by rwa [hrep]),Nat.add_zero]
        · rfl
    have hroom := drawnFrom_le hready hinfo hnodup hmem
    rw [hafter,Function.update_self] at hroom
    obtain ⟨-,hfits⟩ := hready.pools.openedStake_add_le
      (fun k hk => absurd hk (notMem_empty k)) hinfo hglobal (notMem_empty _)
    have hpos := (hready.pools.fresh _ _ hinfo).2
    obtain ⟨sum',g',hrun,hdrawn',hsum⟩ :=
      hdrawn.harvest hready.pools hrep hinfo hglobal hshare hroom sum
    refine ⟨sum',g',hrun,?_,?_⟩
    · rwa [hafter,opened_append_some hpool]
    · rcases hsum with hsum | ⟨-,hsum⟩
      · exact .inr ⟨global,_,hglobal,by omega,by omega,hsum⟩
      · exact .inl hsum

theorem dvd_divisor {epochs : List Epoch} {global : GlobalRewardsInfo} (he : epoch ∈ epochs)
    (hglobal : s.gov.globalRewards.lookup epoch = some global) :
    global.totalStake.toNat ∣ s.divisor epochs := by
  induction epochs with
  | nil => cases he
  | cons e es ih =>
    simp only [divisor,List.foldr_cons]
    rcases List.mem_cons.mp he with rfl | he
    · simp only [hglobal,elim_some]
      exact Nat.dvd_lcm_left _ _
    · exact (ih he).trans (Nat.dvd_lcm_right _ _)

/-- The payments of a claim, one after the other; the sum stays exact. -/
theorem collect_drawn (hready : s.Ready) {ps : List (Epoch × ClaimStatus H)} {q : ℚ} {k r : ℕ}
    (hk : 0 < k) (hfit : k < 2 ^ 256) (hr : r * k < 2 ^ 256)
    (hpays : ∀ p ∈ ps,(s.standing account p.1).Pays p.2)
    (hdvd : ∀ p ∈ ps,∀ global,s.gov.globalRewards.lookup p.1 = some global →
      global.totalStake.toNat ∣ k) (hnodup : (log ++ ps.map fun p => (account,p.1)).Nodup)
    (hmem : ∀ x ∈ log ++ ps.map fun p => (account,p.1),x.1 ∈ s.infos)
    (hdrawn : Drawn s.gov (s.drawnFrom log) (s.opened log) g)
    (hq : 0 ≤ q) (hqk : q.den ∣ k) (hle : q + s.totalReward (ps.map (·.1)) ≤ r) :
    ∃ q' g',0 ≤ q' ∧ (collect account ps (ofRat q)).run g = .ok (ofRat q',g') ∧
      Drawn s.gov (s.drawnFrom (log ++ ps.map fun p => (account,p.1)))
        (s.opened (log ++ ps.map fun p => (account,p.1))) g' := by
  induction ps generalizing log q g with
  | nil => exact ⟨q,g,hq,rfl,by simpa using hdrawn⟩
  | cons p ps ih =>
    have happend : log ++ (p::ps).map (fun p => (account,p.1)) =
        (log ++ [(account,p.1)]) ++ ps.map fun p => (account,p.1) := by simp
    rw [happend] at hnodup hmem ⊢
    have hnodup1 : (log ++ [(account,p.1)]).Nodup := hnodup.of_append_left
    have hmem1 : ∀ x ∈ log ++ [(account,p.1)],x.1 ∈ s.infos :=
      fun x hx => hmem x (List.mem_append_left _ hx)
    obtain ⟨sum',g1,hrun,hdrawn1,hsum⟩ := harvest_drawn hready
      (hpays p List.mem_cons_self) hnodup1 hmem1 hdrawn (ofRat q)
    have hpays' : ∀ p ∈ ps,(s.standing account p.1).Pays p.2 :=
      fun p hp => hpays p (List.mem_cons_of_mem _ hp)
    have hdvd' : ∀ p ∈ ps,∀ global,s.gov.globalRewards.lookup p.1 = some global →
        global.totalStake.toNat ∣ k := fun p hp => hdvd p (List.mem_cons_of_mem _ hp)
    have htotal : s.totalReward ((p::ps).map (·.1)) = (s.gov.globalRewards.lookup p.1).elim 0
        (fun global => global.totalReward.toNat) + s.totalReward (ps.map (·.1)) := rfl
    rw [htotal,Nat.cast_add] at hle
    have hnext : ∃ q1 : ℚ,0 ≤ q1 ∧ q1.den ∣ k ∧ q1 + s.totalReward (ps.map (·.1)) ≤ r ∧
        sum' = ofRat q1 := by
      rcases hsum with rfl | ⟨global,n,hglobal,hstake,hn,rfl⟩
      · refine ⟨q,hq,hqk,le_trans ?_ hle,rfl⟩
        linarith
      · rw [hglobal,elim_some] at hle
        obtain ⟨hadd,hpos,hden,hbound⟩ := add_parts hstake hk hfit hr hq hqk
          (hdvd p List.mem_cons_self global hglobal) hn (by linarith)
        exact ⟨_,hpos,hden,by linarith,hadd⟩
    obtain ⟨q1,hq1,hqk1,hle1,rfl⟩ := hnext
    obtain ⟨q',g',hq',hrest,hfinal⟩ := ih hpays' hdvd' hnodup hmem hdrawn1 hq1 hqk1 hle1
    refine ⟨q',g',hq',?_,hfinal⟩
    have hcons : collect account (p::ps) (ofRat q) =
        harvestEpoch account p.2 (ofRat q) p.1 >>= collect account ps := by
      rfl
    rw [hcons,StateT.run_bind,hrun]
    exact hrest

end Claim

theorem collectReward_run {origin : H} {epochNumber : Epoch} {info : AccountInfo H}
    {g g' : GovernanceStore H} {q : ℚ} (hq : 0 ≤ q)
    (hloop : (claimLoop origin info.claimEpoch (g.requests.entries.length + 1)
      info.governanceSubchainHead ⟨false,0,0⟩ epochNumber .zero).run g = .ok (ofRat q,g')) :
    ∃ deposit dust,(collectReward origin epochNumber info).run g =
      .ok ((deposit,{ info with claimEpoch := epochNumber,dust := dust }),g') := by
  have hspec : (collectReward origin epochNumber info).wp (fun _ => False) (fun a g1 =>
      ∃ deposit dust,a = (deposit,{ info with claimEpoch := epochNumber,dust := dust }) ∧
        g1 = g') g := by
    unfold collectReward processClaim
    rw [wp_bind,wp_bind,wp_get,wp_bind]
    refine wp_of_run hloop (wp_bind.mpr ?_)
    refine wp_need (fun hnone => ?_) fun remainder _ => wp_pure.mpr ?_
    · rw [remainder_ofRat hq] at hnone
      cases hnone
    · exact wp_ite (fun _ => wp_pure.mpr ⟨_,_,rfl,rfl⟩) fun _ => wp_pure.mpr ⟨_,_,rfl,rfl⟩
  cases hrun : (collectReward origin epochNumber info).run g with
  | error e => exact ((wp_iff.mp hspec).2 e hrun).elim
  | ok r =>
    obtain ⟨deposit,dust,ha,hg⟩ := hspec.run hrun
    exact ⟨deposit,dust,by rw [← ha,← hg]⟩

/-- Claims change only rewards and the epochs up to which accounts have claimed. -/
structure Progress (s0 : ClaimBook H) (log : List (H × Epoch)) (s : ClaimBook H) : Prop where
  requests : s.gov.requests = s0.gov.requests
  heads : ∀ a,(s.infos.lookup a).map (·.governanceSubchainHead) =
    (s0.infos.lookup a).map (·.governanceSubchainHead)
  nodup : log.Nodup
  claimed : ∀ x ∈ log,∃ info,s.infos.lookup x.1 = some info ∧ x.2 ≤ info.claimEpoch
  drawn : Drawn s0.gov (s0.drawnFrom log) (s0.opened log) s.gov

theorem progress_start (hready : s.Ready) : Progress s [] s where
  requests := rfl
  heads _ := rfl
  nodup := List.nodup_nil
  claimed _ hx := by cases hx
  drawn :=
    { absent := fun _ h => h
      closed := fun _ _ => ⟨rfl,rfl⟩
      pools := fun _ _ _ _ _ h => by cases h
      globals := by
        intro pool info global hinfo hglobal
        obtain ⟨global',hglobal',-,hremaining⟩ := hready.pools.funded _ _ hinfo
        cases hglobal.symm.trans hglobal'
        obtain ⟨-,hfits⟩ := hready.pools.openedStake_add_le
          (fun k hk => absurd hk (notMem_empty k)) hinfo hglobal (notMem_empty _)
        have hpos := (hready.pools.fresh _ _ hinfo).2
        have hzero : s.gov.openedStake (s.opened []) pool.2 = 0 := rfl
        have hwhole : global.drawn 0 = global := by
          rw [GlobalRewardsInfo.drawn,Nat.sub_zero,parts_all (by omega) (Amount.toNat_lt _),
            ← hremaining]
        rw [hzero,if_pos (by omega),hwhole,hglobal]
      stored := fun _ h => by cases h
      bounded := fun _ => Nat.zero_le _ }

variable {s0 : ClaimBook H} {log : List (H × Epoch)}

theorem Progress.subchain (h : Progress s0 log s) (account : H) :
    s.subchain account = s0.subchain account := by
  have hhead := h.heads account
  simp only [ClaimBook.subchain]
  cases hinfo : s.infos.lookup account with
  | none =>
    rw [hinfo] at hhead
    rw [map_eq_none_iff.mp hhead.symm]
    rfl
  | some info =>
    rw [hinfo] at hhead
    obtain ⟨info0,hinfo0,heq⟩ := map_eq_some_iff.mp hhead.symm
    rw [hinfo0]
    simp only [map_some,getD_some,Claimant.governanceSubchain,claimant,heq,h.requests]
    exact GovernanceStore.subchain_congr h.requests

/-- The epochs a claim is for have not been paid to its account. -/
theorem Progress.nodup_append (h : Progress s0 log s) {origin : H} {info : AccountInfo H}
    (hinfo : s.infos.lookup origin = some info) (epochNumber : Epoch) :
    (log ++ ((s.claimant info).payments epochNumber).map fun p => (origin,p.1)).Nodup := by
  have hnew : (((s.claimant info).payments epochNumber).map fun p => (origin,p.1)).Nodup := by
    have hepochs : (((s.claimant info).payments epochNumber).map (·.1)).Nodup := nodup_payments
    have hmap := hepochs.map (Prod.mk_right_injective origin)
    rwa [List.map_map] at hmap
  refine h.nodup.append hnew fun x hold hx => ?_
  obtain ⟨p,hp,rfl⟩ := List.mem_map.mp hx
  obtain ⟨info',hinfo',hle⟩ := h.claimed _ hold
  cases hinfo.symm.trans hinfo'
  have hlt : info.claimEpoch < p.1 := (mem_payments hp).1
  bv_omega

theorem Progress.mem_infos (h : Progress s0 log s) {account : H} :
    account ∈ s0.infos ↔ account ∈ s.infos := by
  rw [← AList.lookup_isSome,← AList.lookup_isSome,← isSome_map,← h.heads account,isSome_map]

theorem Progress.step (hready : s0.Ready) (h : Progress s0 log s) {c : ClaimRequest H}
    (hpayable : s0.Payable s c) : ∃ s' o,s.step c = some (s',o) ∧ Progress s0 (log ++ o) s' := by
  cases hinfo : s.infos.lookup c.origin with
  | none => exact ⟨s,[],by simp [ClaimBook.step,hinfo],by simpa using h⟩
  | some info =>
    by_cases haccepts : (validateClaim s.gov c.epochHash c.epochNumber (.user info)).Accepts ()
    · obtain ⟨hclear,⟨hk,hfit,hr⟩,hlast⟩ := hpayable info hinfo haccepts
      have hchain : (s.claimant info).governanceSubchain = s0.subchain c.origin := by
        rw [← h.subchain]
        simp [ClaimBook.subchain,hinfo]
      rw [h.subchain] at hclear
      have hhead := h.heads c.origin
      rw [hinfo,map_some] at hhead
      obtain ⟨info0,hinfo0,hhead0⟩ := map_eq_some_iff.mp hhead.symm
      have hnodup := h.nodup_append hinfo c.epochNumber
      have hpays : ∀ p ∈ (s.claimant info).payments c.epochNumber,
          (s0.standing c.origin p.1).Pays p.2 := by
        intro p hp
        rw [Claimant.payments,hchain] at hp
        exact payments_standing hclear (fun _ _ _ => rfl) hp
      have hmem : ∀ x ∈ log ++ ((s.claimant info).payments c.epochNumber).map fun p =>
          (c.origin,p.1),x.1 ∈ s0.infos := by
        intro x hx
        rw [h.mem_infos]
        rcases List.mem_append.mp hx with hold | hnew
        · obtain ⟨info',hinfo',-⟩ := h.claimed x hold
          exact AList.lookup_isSome.mp (by simp [hinfo'])
        · obtain ⟨p,-,rfl⟩ := List.mem_map.mp hnew
          exact AList.lookup_isSome.mp (by simp [hinfo])
      obtain ⟨q,g',hq,hcollect,hdrawn⟩ := collect_drawn hready hk hfit hr hpays
        (fun p hp global hglobal => dvd_divisor (List.mem_map_of_mem hp) hglobal)
        hnodup hmem h.drawn le_rfl (by simp) (by simp)
      have hintact : s.gov.Intact (s.gov.requests.entries.length + 1)
          info.governanceSubchainHead := by
        rw [h.requests,← hhead0]
        exact (GovernanceStore.intact_congr h.requests).mpr (hready.intact _ _ hinfo0)
      have hloop : (claimLoop c.origin info.claimEpoch (s.gov.requests.entries.length + 1)
          info.governanceSubchainHead ⟨false,0,0⟩ c.epochNumber .zero).run s.gov =
            .ok (ofRat q,g') :=
        (claimLoop_run (.inl ⟨hintact,hlast⟩)).trans hcollect
      obtain ⟨deposit,dust,hrun⟩ := collectReward_run hq hloop
      refine ⟨⟨g',s.infos.insert c.origin { info with claimEpoch := c.epochNumber,dust := dust }⟩,
        _,by simp only [ClaimBook.step,hinfo,if_pos haccepts,hrun],?_,?_,hnodup,?_,hdrawn⟩
      · exact ((leaves_collectReward (f := GovernanceStore.requests) (by intros; rfl) ..).run
          hrun).trans h.requests
      · intro a
        rw [← h.heads a,Table.lookup_insert_ite]
        split
        · next heq =>
          subst heq
          rw [hinfo]
          rfl
        · rfl
      · intro x hx
        have hnewer : info.claimEpoch < c.epochNumber := lt_of_accepts haccepts
        rcases List.mem_append.mp hx with hold | hnew
        · obtain ⟨info',hinfo',hle⟩ := h.claimed x hold
          by_cases heq : x.1 = c.origin
          · rw [heq,hinfo] at hinfo'
            cases hinfo'
            exact ⟨_,by rw [heq]; exact AList.lookup_insert _,by bv_omega⟩
          · exact ⟨info',(AList.lookup_insert_ne heq).trans hinfo',hle⟩
        · obtain ⟨p,hp,rfl⟩ := List.mem_map.mp hnew
          exact ⟨_,AList.lookup_insert _,(mem_payments hp).2⟩
    · exact ⟨s,[],by simp [ClaimBook.step,hinfo,haccepts],by simpa using h⟩

section Values

variable {global : GlobalRewardsInfo}

theorem poolReward_eq (hglobal : s.gov.globalRewards.lookup pool.2 = some global) :
    s.poolReward pool =
      s.gov.poolStake pool * global.totalReward.toNat / global.totalStake.toNat := by
  simp only [poolReward,hglobal,map_some,getD_some]

theorem harvested_eq (hready : s.Ready) (hinfo : s.gov.rewards.lookup pool = some info)
    (hglobal : s.gov.globalRewards.lookup pool.2 = some global) (log : List (H × Epoch)) :
    s.harvested log pool =
      s.drawnFrom log pool * global.totalReward.toNat / global.totalStake.toNat := by
  have hstake : (s.gov.poolStake pool : ℚ) ≠ 0 := by
    rw [GovernanceStore.poolStake_eq hinfo]
    exact_mod_cast (hready.pools.fresh _ _ hinfo).2.ne'
  have hreward : ∀ a,s.reward a pool =
      s.share a pool * (global.totalReward.toNat / global.totalStake.toNat : ℚ) := by
    intro a
    rw [reward,poolReward_eq hglobal]
    field_simp
  simp only [harvested,drawnFrom,hreward,Nat.cast_list_sum,List.map_map,mul_div_assoc]
  rw [← List.sum_map_mul_right]
  rfl

theorem sum_poolReward_eq {epoch : Epoch} (hglobal : s.gov.globalRewards.lookup epoch = some global)
    (opened : Finset (H × Epoch)) :
    ∑ k ∈ opened with k.2 = epoch,s.poolReward k =
      s.gov.openedStake opened epoch * global.totalReward.toNat / global.totalStake.toNat := by
  rw [GovernanceStore.openedStake,Nat.cast_sum,sum_mul,sum_div]
  refine sum_congr rfl fun k hk => ?_
  obtain ⟨-,rfl⟩ := mem_filter.mp hk
  exact poolReward_eq hglobal

end Values

theorem Progress.solvent {s' : ClaimBook H} (hready : s.Ready) (h : Progress s log s') :
    s.Solvent log s' where
  pools := by
    intro pool hpool
    obtain ⟨info,hinfo⟩ := isSome_iff_exists.mp (AList.lookup_isSome.mpr hpool)
    obtain ⟨global,hglobal,-,-⟩ := hready.pools.funded _ _ hinfo
    rw [harvested_eq hready hinfo hglobal,poolReward_eq hglobal]
    have hle := h.drawn.bounded pool
    gcongr
  epochs := by
    intro epoch global hglobal
    rw [sum_poolReward_eq hglobal]
    have hle := hready.pools.openedStake_le h.drawn.stored hglobal
    refine div_le_of_le_mul₀ (Nat.cast_nonneg _) (Nat.cast_nonneg _) ?_
    rw [mul_comm]
    gcongr
  remaining := by
    intro pool hopen
    obtain ⟨info,hinfo⟩ := isSome_iff_exists.mp
      (AList.lookup_isSome.mpr (h.drawn.stored pool hopen))
    obtain ⟨global,hglobal,-,-⟩ := hready.pools.funded _ _ hinfo
    have hpool := h.drawn.pools pool info global hinfo hglobal hopen
    have hle := h.drawn.bounded pool
    rw [harvested_eq hready hinfo hglobal,poolReward_eq hglobal]
    rw [GovernanceStore.poolStake_eq hinfo] at hle ⊢
    by_cases hlt : s.drawnFrom log pool < info.totalStake.toNat
    · rw [if_pos hlt] at hpool
      refine .inr ⟨_,hpool,rfl,?_⟩
      simp only [RewardsInfo.drawn,parts,Nat.cast_sub hle,sub_mul,sub_div]
    · rw [if_neg hlt] at hpool
      exact .inl ⟨hpool,by rw [le_antisymm hle (not_lt.mp hlt)]⟩
  remainingGlobal := by
    intro pool hpool global hglobal
    obtain ⟨info,hinfo⟩ := isSome_iff_exists.mp (AList.lookup_isSome.mpr hpool)
    have hlookup := h.drawn.globals pool info global hinfo hglobal
    have hle := hready.pools.openedStake_le h.drawn.stored hglobal
    obtain ⟨-,hfits⟩ := hready.pools.openedStake_add_le
      (fun k hk => absurd hk (notMem_empty k)) hinfo hglobal (notMem_empty _)
    have hpos := (hready.pools.fresh _ _ hinfo).2
    have hstake : (global.totalStake.toNat : ℚ) ≠ 0 := by
      have : global.totalStake.toNat ≠ 0 := by omega
      exact_mod_cast this
    rw [sum_poolReward_eq hglobal]
    by_cases hlt : s.gov.openedStake (s.opened log) pool.2 < global.totalStake.toNat
    · rw [if_pos hlt] at hlookup
      refine .inr ⟨_,hlookup,?_⟩
      simp only [GlobalRewardsInfo.drawn,parts,Nat.cast_sub hle,sub_mul,sub_div]
      rw [mul_div_cancel_left₀ _ hstake]
    · rw [if_neg hlt] at hlookup
      refine .inl ⟨hlookup,?_⟩
      rw [le_antisymm hle (not_lt.mp hlt),mul_div_cancel_left₀ _ hstake]

/-- Claims in any order are all paid, and leave the pools solvent. -/
theorem exec_solvent (hready : s.Ready) {es : List (ClaimRequest H)}
    (hes : Machine.Along ClaimBook.step s.Payable s es) :
    ∃ s' log,Machine.exec ClaimBook.step s es = some (s',log) ∧ s.Solvent log s' := by
  have hstep : ∀ log s1 c,Progress s log s1 → s.Payable s1 c →
      ∃ s' o,s1.step c = some (s',o) ∧ Progress s (log ++ o) s' :=
    fun log s1 c h hpayable => h.step hready hpayable
  obtain ⟨s',log,hrun,hprogress⟩ := Machine.exec_invariant hstep (progress_start hready) hes
  exact ⟨s',log,hrun,hprogress.solvent hready⟩

/-- A representative, an account with half of its stake, and a second representative. -/
def sample (levyPercentage : BitVec 8) : ClaimBook ℕ where
  gov := { GovernanceStore.empty with
    requests := ((∅ : Table ℕ (Request ℕ)).insert 1 ⟨1,0,0,0,0,0,.proxy ⟨53,0⟩ 100 2⟩).insert 2
      ⟨2,0,0,0,0,0,.startRepresenting ⟨53,0⟩ none levyPercentage⟩
    epochs := (∅ : Table ℕ (EpochBlock ℕ)).insert 80 ⟨56,0,0,[],false,0,0⟩
    epochTip := some (80,56)
    rewards := ((∅ : Table (ℕ × Epoch) RewardsInfo).insert (2,55)
      ⟨false,levyPercentage,200,100,.zero,.zero⟩).insert (3,55) ⟨false,100,200,200,.zero,.zero⟩
    globalRewards := (∅ : Table Epoch GlobalRewardsInfo).insert 55 ⟨400,.ofNat 80,80⟩ }
  infos := ((∅ : Table ℕ (AccountInfo ℕ)).insert 1
    { AccountInfo.default with governanceSubchainHead := 1,claimEpoch := 52 }).insert 2
    { AccountInfo.default with governanceSubchainHead := 2,claimEpoch := 52 }

theorem ready_sample : (sample 50).Ready where
  pools :=
    { fresh := Table.forall_entries_iff.mp (by decide +kernel)
      funded := by
        have hall : ∀ pool info,(sample 50).gov.rewards.lookup pool = some info →
            pool.2 = 55 := Table.forall_entries_iff.mp (by decide +kernel)
        intro pool info hinfo
        rw [hall pool info hinfo]
        exact ⟨⟨400,.ofNat 80,80⟩,by decide +kernel,by decide,rfl⟩
      staked := Table.forall_entries_iff.mp (by decide +kernel) }
  levies := Table.forall_entries_iff.mp (by decide +kernel)
  delegators := Table.forall_entries_iff.mp (by decide +kernel)
  intact := by
    have hall : ∀ account info,(sample 50).infos.lookup account = some info →
        info.governanceSubchainHead = 1 ∨ info.governanceSubchainHead = 2 :=
      Table.forall_entries_iff.mp (by decide +kernel)
    intro account info hinfo
    rcases hall account info hinfo with h | h
    · rw [h]
      exact .inr ⟨_,_,rfl,rfl,.inl rfl⟩
    · rw [h]
      exact .inr ⟨_,_,rfl,rfl,.inl rfl⟩

theorem exec_solvent_sample :
    ∃ s' log,Machine.exec ClaimBook.step (sample 50) [⟨1,80,56⟩,⟨2,80,56⟩] = some (s',log) ∧
      (sample 50).Solvent log s' := by
  have hchecks : Machine.checks ClaimBook.step (fun s c => decide ((sample 50).Payable s c))
      (sample 50) [⟨1,80,56⟩,⟨2,80,56⟩] = true := by
    decide +kernel
  exact exec_solvent ready_sample (Machine.along_of_decide hchecks)

/-- With a levy of 250 percent a claim is paid more than the pool, of which nothing is taken. -/
theorem levy_overdraws_pool :
    (validateGovernance Config.sample { GovernanceStore.empty with
        epochs := (∅ : Table ℕ (EpochBlock ℕ)).insert 70 ⟨52,0,0,[],false,0,0⟩
        epochTip := some (70,52) }
      ⟨2,0,0,0,0,0,.startRepresenting ⟨53,0⟩ (some minRepStake) 250⟩
      (.user { AccountInfo.default with
        balance := BitVec.allOnes 128
        availableBalance := BitVec.allOnes 128 }) 53).Accepts () ∧
      (sample 250).poolReward (2,55) = 40 ∧
      ((sample 250).infos.lookup 1).bind (fun info =>
        ((collectReward 1 56 info).run (sample 250).gov).toOption.map fun r =>
          (r.1.1,r.2.rewards.lookup (2,55))) =
        some (50,(sample 250).gov.rewards.lookup (2,55)) := by
  decide +kernel

end ClaimBook

end LogosCore.Ledger
