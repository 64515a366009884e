import LogosCore.Effects

/-! # What requests leave alone in elections

Staking, voting power, rewards and everything that moves money leave the tables of candidates, of
representatives, of requests and of epoch blocks alone. Of all requests only the candidacy requests,
the votes and the changes of the stake of a candidate reach the candidates. -/
namespace LogosCore.Ledger

variable {H : Type} [DecidableEq H] [Zero H] {cfg : Config H}

open Option Program

def GovernanceStore.electoral (g : GovernanceStore H) :=
  (g.candidates,g.leadingCandidates,g.leadingCandidatesSize,g.minLeadingCandidate,g.epochs,
    g.epochTip)

theorem GovernanceStore.OnlyPower.electoral {g g' : GovernanceStore H} (h : g.OnlyPower g') :
    g'.electoral = g.electoral := by
  rw [h]
  rfl

theorem GovernanceStore.OnlyLiabilities.electoral {g g' : GovernanceStore H}
    (h : g.OnlyLiabilities g') : g'.electoral = g.electoral := by
  rw [h]
  rfl

instance : StakeApart (H := H) GovernanceStore.electoral where
  power h := h.electoral
  liabilities h := h.electoral
  thawing _ _ := rfl
  rewards _ _ _ := rfl
  stakes _ _ := rfl

variable {δ : Type} {f : GovernanceStore H → δ} {α : Type}

namespace StakingManager

theorem leaves_pruneThawing [Apart f] (origin : H) (info : AccountInfo H) (epoch : Epoch) :
    (pruneThawing origin info epoch).Leaves f := by
  refine leaves_ite leaves_pure (leaves_get fun g => wp_bind.mpr (wp_set.mpr ?_))
  exact ((leaves_setAvailableBalance ..).reads _).imp fun _ _ h => h.trans (Apart.thawing g _)

end StakingManager

namespace Store

variable {s s' : Store H} {epoch : Epoch}

theorem apart_runGov {x : Gov H α} {a : α} (hx : x.Leaves f) (h : s.runGov x = some (a,s')) :
    f s'.gov = f s.gov := by
  obtain ⟨g,hrun,rfl⟩ := runGov_eq_some.mp h
  exact hx.run hrun

theorem gov_placeReceive {receive : ReceiveBlock H} {timestamp : BitVec 64}
    (h : s.placeReceive cfg receive timestamp = some s') : s'.gov = s.gov := by
  obtain ⟨receives,rfl⟩ := placeReceive_receives h
  rfl

variable {info' : Account H} {r : Request H}

theorem apart_setBalance [Apart f] {info : Account H} {newBalance : Amount}
    (h : s.setBalance info newBalance epoch = some (info',s')) : f s'.gov = f s.gov := by
  cases info with
  | token t =>
    cases h
    rfl
  | user u =>
    obtain ⟨r,hrun,heq⟩ := map_eq_some_iff.mp h
    cases heq
    exact apart_runGov (leaves_setBalance ..) hrun

section Send

variable {timestamp : BitVec 64} {requestHash tokenId origin : H} {send : Transaction H}
  {index : BitVec 16}

theorem apart_applySendTo [Apart f] {info : Option (Account H)} {info' : Account H}
    (h : s.applySendTo cfg timestamp requestHash tokenId origin epoch send info index =
      some (info',s')) : f s'.gov = f s.gov := by
  obtain ⟨info1,s1,receives,-,hadd,rfl⟩ := applySendTo_steps h
  split at hadd
  · have hset : f s1.gov = f s.gov := apart_setBalance hadd
    exact hset
  · obtain ⟨u,-,heq⟩ := map_eq_some_iff.mp hadd
    by_cases hentry : (u.findEntry tokenId).isSome
    · simp only [tether,hentry,if_true] at heq
      cases heq
      rfl
    · simp only [tether,hentry,Bool.false_eq_true,if_false] at heq
      cases heq
      rfl

theorem apart_applySend [Apart f]
    (h : s.applySend cfg timestamp requestHash tokenId origin epoch send index = some s') :
    f s'.gov = f s.gov := by
  obtain ⟨⟨info,s1⟩,hsend,h⟩ := bind_eq_some_iff.mp h
  cases h
  have hsame : f s1.gov = f s.gov := apart_applySendTo hsend
  exact hsame

theorem apart_applySends [Apart f] {sends : List (Transaction H)}
    (h : applySends cfg timestamp requestHash tokenId origin epoch sends index s = some s') :
    f s'.gov = f s.gov := by
  induction sends generalizing index s with
  | nil =>
    cases h
    rfl
  | cons send sends ih =>
    obtain ⟨s1,hsend,h⟩ := bind_eq_some_iff.mp h
    exact (ih h).trans (apart_applySend hsend)

end Send

theorem apart_beginRequest [Apart f] {info : Account H}
    (h : s.beginRequest cfg r epoch info = some (info',s')) : f s'.gov = f s.gov := by
  obtain ⟨⟨info1,s1⟩,hprune,h⟩ := bind_eq_some_iff.mp h
  have hpruned : f s1.gov = f s.gov := by
    cases info with
    | token t =>
      cases hprune
      rfl
    | user u =>
      obtain ⟨r,hrun,heq⟩ := map_eq_some_iff.mp hprune
      cases heq
      exact apart_runGov (StakingManager.leaves_pruneThawing ..) hrun
  by_cases hvote : r.body.isElectionVote
  · simp only [if_pos hvote] at h
    cases h
    exact hpruned
  · simp only [if_neg hvote] at h
    obtain ⟨⟨info2,s2⟩,hset,h⟩ := bind_eq_some_iff.mp h
    cases h
    exact (apart_setBalance hset).trans hpruned

def reachesCandidates : Body H → Bool
  | .electionVote _ _ => true
  | .announceCandidacy _ _ _ => true
  | .renounceCandidacy _ _ => true
  | .stake _ _ => true
  | .unstake _ => true
  | _ => false

theorem leaves_applyGovernance {info : AccountInfo H} (hkind : reachesCandidates r.body = false) :
    (applyGovernance cfg r info).Leaves GovernanceStore.electoral := by
  have hset : ∀ gov setStake info,
      (applySetStake cfg r gov setStake info).Leaves GovernanceStore.electoral := by
    intro gov setStake info
    cases setStake with
    | none => exact leaves_pure
    | some amount => exact StakingManager.leaves_stake ..
  unfold applyGovernance
  cases hbody : r.body with
  | proxy gov lockProxy rep =>
    exact (leaves_modify (by intro; rfl)).bind fun _ => StakingManager.leaves_stake ..
  | startRepresenting gov setStake levy =>
    exact (leaves_modify (by intro; rfl)).bind fun _ =>
      (leaves_modify (by intro; rfl)).bind fun _ => hset ..
  | stopRepresenting gov setStake =>
    refine leaves_get fun g => wp_bind.mpr (wp_need (fun _ => trivial) fun rep _ => ?_)
    refine wp_bind.mpr (wp_set.mpr ?_)
    refine ((leaves_modify (by intro; rfl)).bind fun _ => hset ..).reads _
  | electionVote gov votes => simp [hbody,reachesCandidates] at hkind
  | announceCandidacy gov setStake levy => simp [hbody,reachesCandidates] at hkind
  | renounceCandidacy gov setStake => simp [hbody,reachesCandidates] at hkind
  | stake gov amount => simp [hbody,reachesCandidates] at hkind
  | unstake gov => simp [hbody,reachesCandidates] at hkind
  | _ => exact leaves_pure

/-- A request changes what its governance part changes. -/
theorem apart_applyBody [Apart f] {timestamp : BitVec 64} {info : Account H}
    {deposits : List Amount} (hgov : ∀ user,(applyGovernance cfg r user).Leaves f)
    (h : s.applyBody cfg r timestamp epoch info = some (info',deposits,s')) :
    f s'.gov = f s.gov := by
  cases applied_of_applyBody h with
  | send _ hset hsends => exact (apart_applySends hsends).trans (apart_setBalance hset)
  | issuance _ hissue =>
    rw [gov_placeReceive hissue]
    rfl
  | revoke _ hrevoke hsend =>
    obtain ⟨user,e,receives,head,-,-,rfl⟩ := revokeFrom_steps hrevoke
    have hsent := apart_applySend (f := f) hsend
    exact hsent
  | adjustUserStatus _ hadjust =>
    rcases adjustUserStatus_steps hadjust with ⟨statuses,rfl⟩ | ⟨user,e,-,-,rfl⟩
    · rfl
    · rfl
  | payout _ _ hsend => exact apart_applySend hsend
  | withdrawLogos _ hsend => exact apart_applySend hsend
  | tokenSend _ hsend =>
    obtain ⟨token,e,-,-,hsends,-⟩ := sendTokens_steps hsend
    have hsent := apart_applySends (f := f) hsends
    exact hsent
  | claim _ hclaim =>
    obtain ⟨deposit,user1,s1,hcollect,hclaim⟩ := claim_steps hclaim
    have hcollected := apart_runGov (f := f) (leaves_collectReward Apart.rewards ..) hcollect
    rcases hclaim with ⟨-,hsend⟩ | ⟨-,-,-,rfl⟩
    · exact (apart_applySendTo hsend).trans hcollected
    · exact hcollected
  | unknown => rfl
  | update => rfl
  | govern _ hrun => exact apart_runGov (hgov _) hrun

end Store

end LogosCore.Ledger
