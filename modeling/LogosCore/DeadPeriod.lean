import LogosCore.EarlyUpdates
import LogosCore.ElectionFrames
import LogosCore.Leaders

/-! # The dead period

Between the start of an epoch and the epoch block of the epoch before, requests of the new epoch
are already applied while the winners of the old one have yet to be read. Votes and candidacies are
refused then; a change of the stake of a candidate is not. -/
namespace LogosCore.Ledger

variable {H : Type} [DecidableEq H] [Zero H]

open Option Program EpochVotingManager

def Body.ownStake : Body H → Option Amount
  | .stake _ amount => some amount
  | .unstake _ => some 0
  | _ => none

/-- The record of a candidate after a change of its stake. -/
def CandidateInfo.restaked (c : CandidateInfo) (epoch : Epoch) (amount : Amount) : CandidateInfo :=
  { c.transitionIfNecessary epoch with nextStake := amount }

variable (cfg : Config H)

/-- A write repeats what is there, or comes from outside of eight and is not above the least. -/
def GovernanceStore.KeepsLeading (g : GovernanceStore H) (account : H) (info : CandidateInfo) : Prop :=
  if account ∈ g.leadingCandidates then g.leadingCandidates.lookup account = some info
  else g.leadingCandidatesSize = maxLeadingCandidates ∧
    ¬greater cfg (account,info) g.minLeadingCandidate

/-- A request that is accepted and is the next one of its account. -/
def Store.Applies (s : Store H) (i : Submission H) : Prop :=
  (s.validateRequest cfg i false).Accepts () ∧
    ∀ info,s.accounts.lookup i.request.getAccount = some info → i.request.previous = info.base.head

/-- A change of the stake of a candidate that leaves the leading candidates as they are. -/
def Store.LeavesWinners (s : Store H) (i : Submission H) : Prop :=
  s.Applies cfg i → ∀ amount c,i.request.body.ownStake = some amount →
    s.gov.candidates.lookup i.request.origin = some c →
    s.gov.KeepsLeading cfg i.request.origin (c.restaked i.epoch amount)

variable {cfg} {g g' : GovernanceStore H} {account : H} {info : CandidateInfo}

theorem updateLeadingCandidates_winners (hrank : Function.Injective cfg.rank)
    (h : updateLeadingCandidates cfg account info g = some g') :
    getElectionWinners cfg g' = getElectionWinners cfg g ↔ g.KeepsLeading cfg account info := by
  unfold getElectionWinners GovernanceStore.KeepsLeading
  rw [Table.listed_eq_iff hrank]
  have hjoined : account ∉ g.leadingCandidates →
      ∀ t : Table H CandidateInfo,t.lookup account = some info →
      ¬∀ k,t.lookup k = g.leadingCandidates.lookup k := by
    intro hnot t hin hsame
    rw [hsame account,AList.lookup_eq_none.mpr hnot] at hin
    cases hin
  unfold updateLeadingCandidates at h
  by_cases hmem : account ∈ g.leadingCandidates
  · rw [if_pos hmem] at h ⊢
    have hleading : g'.leadingCandidates = g.leadingCandidates.insert account info := by
      split at h <;> cases h <;> rfl
    rw [hleading]
    constructor
    · intro hsame
      rw [← hsame account,AList.lookup_insert]
    · intro hsame k
      rw [Table.lookup_insert_ite]
      split
      · next heq => rw [heq,hsame]
      · rfl
  · rw [if_neg hmem] at h ⊢
    by_cases hfull : g.leadingCandidatesSize = maxLeadingCandidates
    · rw [if_pos hfull] at h
      by_cases hgreater : candidateIsGreater cfg (account,info) g.minLeadingCandidate = true
      · rw [if_pos hgreater] at h
        split at h
        · cases h
          exact iff_of_false (hjoined hmem _ (AList.lookup_insert _)) fun hkeeps =>
            hkeeps.2 hgreater
        · cases h
      · rw [if_neg hgreater] at h
        cases h
        exact iff_of_true (fun _ => rfl) ⟨hfull,hgreater⟩
    · rw [if_neg hfull] at h
      cases h
      refine iff_of_false (hjoined hmem _ ?_) fun hkeeps => hfull hkeeps.1
      split
      · exact AList.lookup_insert _
      · exact AList.lookup_insert _

theorem GovernanceStore.keepsLeading_congr (h : g'.electoral = g.electoral) :
    g'.KeepsLeading cfg account info ↔ g.KeepsLeading cfg account info := by
  simp only [electoral,Prod.mk.injEq] at h
  simp only [KeepsLeading,h.2.1,h.2.2.1,h.2.2.2.1]

theorem getElectionWinners_congr (h : g'.electoral = g.electoral) :
    getElectionWinners cfg g' = getElectionWinners cfg g := by
  simp only [GovernanceStore.electoral,Prod.mk.injEq] at h
  simp only [getElectionWinners,h.2.1]

theorem GovernanceStore.isDeadPeriod_congr (hepochs : g'.epochs = g.epochs)
    (htip : g'.epochTip = g.epochTip) (epoch : Epoch) :
    g'.isDeadPeriod epoch = g.isDeadPeriod epoch := by
  simp only [isDeadPeriod,epochGet,hepochs,htip]

theorem wp_updateCandidate (hrank : Function.Injective cfg.rank) (epoch : Epoch) (amount : Amount) :
    (updateCandidate cfg account epoch (some amount)).wp (fun _ => True) (fun _ g' =>
      g'.epochs = g.epochs ∧ g'.epochTip = g.epochTip ∧
      (getElectionWinners cfg g' = getElectionWinners cfg g ↔
        ∀ c,g.candidates.lookup account = some c →
          g.KeepsLeading cfg account (c.restaked epoch amount))) g := by
  unfold updateCandidate
  rw [wp_bind,wp_get]
  cases hlookup : g.candidates.lookup account with
  | none => exact ⟨rfl,rfl,iff_of_true rfl (by simp)⟩
  | some c =>
    refine wp_bind.mpr (wp_get.mpr (wp_bind.mpr (wp_need (fun _ => trivial) fun g' hg' => ?_)))
    have honly := onlyCandidates_updateLeadingCandidates hg'
    have hwinners := updateLeadingCandidates_winners hrank hg'
    refine wp_set.mpr ⟨?_,?_,?_⟩
    · rw [honly]
    · rw [honly]
    · refine hwinners.trans ⟨fun hkeeps c' hc' => ?_,fun hkeeps => hkeeps c rfl⟩
      cases hc'
      exact hkeeps

theorem wp_applyStake (hrank : Function.Injective cfg.rank) (r : Request H) (gov : Governance H)
    (amount : Amount) (info : AccountInfo H) :
    (applyStake cfg r gov amount info).wp (fun _ => True) (fun _ g' =>
      g'.epochs = g.epochs ∧ g'.epochTip = g.epochTip ∧
      (getElectionWinners cfg g' = getElectionWinners cfg g ↔
        ∀ c,g.candidates.lookup r.origin = some c →
          g.KeepsLeading cfg r.origin (c.restaked gov.epochNum amount))) g := by
  refine wp_bind.mpr (wp_modify.mpr (((StakingManager.leaves_stake
    (f := GovernanceStore.electoral) ..).reads _).bind
    fun info' g1 h1 => (wp_updateCandidate hrank gov.epochNum amount).bind
      fun _ g2 h2 => ?_))
  replace h1 : g1.electoral = g.electoral := h1
  obtain ⟨hepochs,htip,hwinners⟩ := h2
  have hparts := h1
  simp only [GovernanceStore.electoral,Prod.mk.injEq] at hparts
  refine ⟨hepochs.trans hparts.2.2.2.2.1,htip.trans hparts.2.2.2.2.2,?_⟩
  rw [← getElectionWinners_congr h1,hwinners,hparts.1]
  simp only [GovernanceStore.keepsLeading_congr h1]

namespace Store

variable {s s' : Store H} {i : Submission H} {deposits : List Amount}

/-- In the dead period a request that reaches the candidates is a change of stake of the epoch. -/
theorem ownStake_of_accepts {r : Request H} {info : Account H} {epoch : Epoch}
    (hdead : s.gov.isDeadPeriod epoch = some true) (hkind : reachesCandidates r.body = true)
    (h : (s.validateBody cfg r info epoch).Accepts ()) :
    ∃ gov amount,gov.epochNum = epoch ∧ r.body.ownStake = some amount ∧
      ∀ user,applyGovernance cfg r user = applyStake cfg r gov amount user := by
  unfold validateBody at h
  cases hbody : r.body with
  | electionVote gov votes =>
    simp only [hbody,validateGovernance,validateElectionVote,Body.administered,
      isSome_none,Bool.false_eq_true,if_false,Check.accepts_found_bind,
      Check.accepts_require_bind,Check.accepts_attempt_bind,hdead] at h
    obtain ⟨_,_,_,_,_,_,hb,hnot,_⟩ := h
    cases hb
    simp at hnot
  | announceCandidacy gov setStake levy =>
    simp only [hbody,validateGovernance,validateAnnounceCandidacy,Body.administered,
      isSome_none,Bool.false_eq_true,if_false,Check.accepts_found_bind,
      Check.accepts_require_bind,Check.accepts_attempt_bind,hdead] at h
    obtain ⟨_,_,_,_,hb,hnot,_⟩ := h
    cases hb
    simp at hnot
  | renounceCandidacy gov setStake =>
    simp only [hbody,validateGovernance,validateRenounceCandidacy,validateElection,
      Body.administered,isSome_none,Bool.false_eq_true,if_false,
      Check.accepts_bind,Check.accepts_require,Check.accepts_attempt,hdead] at h
    obtain ⟨_,_,_,⟨_,_,_,_,_,hb,_,hnot,_⟩,_⟩ := h
    cases hb
    simp at hnot
  | stake gov amount =>
    simp only [hbody,validateGovernance,validateStake,validateSubchain,Body.administered,
      isSome_none,Bool.false_eq_true,if_false,
      Check.accepts_bind,Check.accepts_require] at h
    obtain ⟨_,_,_,⟨_,hepoch,_⟩,_⟩ := h
    refine ⟨gov,amount,hepoch,rfl,fun user => ?_⟩
    simp only [applyGovernance,hbody]
  | unstake gov =>
    simp only [hbody,validateGovernance,validateUnstake,validateSubchain,Body.administered,
      isSome_none,Bool.false_eq_true,if_false,
      Check.accepts_bind,Check.accepts_require] at h
    obtain ⟨_,_,_,⟨_,hepoch,_⟩,_⟩ := h
    refine ⟨gov,0,hepoch,rfl,fun user => ?_⟩
    simp only [applyGovernance,hbody]
  | _ => simp [hbody,reachesCandidates] at hkind

theorem applies_iff_adopts : s.Applies cfg i ↔ s.Adopts cfg i := by
  refine and_congr_right fun haccepts => ?_
  obtain ⟨info,hinfo⟩ := accepted_lookup haccepts
  constructor
  · exact fun h => ⟨info,hinfo,h info hinfo⟩
  · rintro ⟨info1,h1,hhead⟩ info2 h2
    cases h1.symm.trans h2
    exact hhead

/-- A request keeps the winners exactly where it leaves the leading candidates as they are. -/
theorem process_winners (hrank : Function.Injective cfg.rank)
    (hdead : s.gov.isDeadPeriod i.epoch = some true) (h : s.process cfg i = some (s',deposits)) :
    s'.gov.isDeadPeriod i.epoch = some true ∧
      (getElectionWinners cfg s'.gov = getElectionWinners cfg s.gov ↔ s.LeavesWinners cfg i) := by
  have hstill : ∀ {s1 : Store H},s1.gov.electoral = s.gov.electoral →
      s1.gov.isDeadPeriod i.epoch = some true := by
    intro s1 hsame
    simp only [GovernanceStore.electoral,Prod.mk.injEq] at hsame
    rw [GovernanceStore.isDeadPeriod_congr hsame.2.2.2.2.1 hsame.2.2.2.2.2,hdead]
  rcases process_split h with ⟨hnot,hs',-⟩ | ⟨info,info1,info2,s1,s2,hadopts,-,-,-,hbody,hbegin,
    happly,rfl⟩
  · have hnever : s.LeavesWinners cfg i := fun happlies => absurd (applies_iff_adopts.mp happlies) hnot
    rcases hs' with rfl | rfl
    · exact ⟨hdead,iff_of_true rfl hnever⟩
    · exact ⟨hdead,iff_of_true rfl hnever⟩
  · have hbegun : s1.gov.electoral = (s.storeRequest cfg i.request i.timestamp).gov.electoral :=
      apart_beginRequest hbegin
    replace hbegun : s1.gov.electoral = s.gov.electoral := hbegun
    cases hkind : reachesCandidates i.request.body with
    | false =>
      have hsame : s2.gov.electoral = s.gov.electoral :=
        (apart_applyBody (fun _ => leaves_applyGovernance hkind) happly).trans hbegun
      refine ⟨hstill hsame,iff_of_true (getElectionWinners_congr hsame) ?_⟩
      intro _ amount c hown
      cases hb : i.request.body <;> rw [hb] at hown hkind <;> cases hown <;> cases hkind
    | true =>
      have hgoverns : i.request.body.governs = true := by
        cases hb : i.request.body <;> rw [hb] at hkind <;> cases hkind <;> rfl
      obtain ⟨gov,amount,hepoch,hown,hstake⟩ := ownStake_of_accepts hdead hkind hbody
      obtain ⟨user,user',hgov⟩ := governance_of_applyBody hgoverns happly
      rw [hstake] at hgov
      obtain ⟨hepochs,htip,hwinners⟩ := (wp_applyStake hrank ..).run hgov
      rw [hepoch,getElectionWinners_congr hbegun] at hwinners
      simp only [GovernanceStore.keepsLeading_congr hbegun] at hwinners
      have hstill1 := hstill hbegun
      simp only [GovernanceStore.electoral,Prod.mk.injEq] at hbegun
      refine ⟨(GovernanceStore.isDeadPeriod_congr hepochs htip _).trans hstill1,?_⟩
      refine hwinners.trans ⟨fun hkeeps _ amount' c hown' hc => ?_,fun hleaves c hc => ?_⟩
      · cases hown.symm.trans hown'
        exact hkeeps c (by rw [hbegun.1]; exact hc)
      · exact hleaves (applies_iff_adopts.mpr hadopts) amount c hown (by rw [← hbegun.1]; exact hc)

variable (cfg) in
/-- The winners stay exactly where every change of a stake leaves the leading candidates as they
are. -/
theorem always_winners_iff (hrank : Function.Injective cfg.rank) (s : Store H) (epoch : Epoch)
    (hdead : s.gov.isDeadPeriod epoch = some true) (requests : List (Submission H))
    (hepoch : ∀ i ∈ requests,i.epoch = epoch) {r : Store H × List Amount}
    (hrun : Machine.exec (process cfg) s requests = some r) :
    Machine.Always (process cfg)
        (fun s' => getElectionWinners cfg s'.gov = getElectionWinners cfg s.gov) s requests ↔
      Machine.Along (process cfg) (fun s i => s.LeavesWinners cfg i) s requests := by
  refine Machine.always_iff_along_of_exec (J := fun s' => s'.gov.isDeadPeriod epoch = some true)
    (fun s1 i s2 o hok hdead1 hwinners hstep => ?_) hdead rfl hepoch hrun
  cases hok
  obtain ⟨hdead2,hiff⟩ := process_winners hrank hdead1 hstep
  rw [← hwinners]
  exact ⟨hdead2,hiff⟩

section Sample

/-- Accounts 1 and 2 have Logos, and candidate 1 won epoch 10, whose epoch block is missing. -/
def deadPeriodSample : Store ℕ :=
  let funded : Account ℕ :=
    .user { AccountInfo.default with balance := 2 ^ 100,availableBalance := 2 ^ 100 }
  { (Store.empty.accountPut 1 funded).accountPut 2 funded with
    gov := { GovernanceStore.empty with
      epochs := AList.insert 5 ⟨9,0,0,[],false,0,0⟩ ∅
      epochTip := some (5,9)
      candidates := AList.insert 1 ⟨10,100,100,10,100⟩ ∅
      leadingCandidates := AList.insert 1 ⟨10,100,100,10,100⟩ ∅
      leadingCandidatesSize := 1 } }

def sampleStake (origin : ℕ) : Submission ℕ where
  request := ⟨origin,0,0x21e19e0c9bab2400000,0,0,7,.stake ⟨11,0⟩ 50⟩
  epoch := 11
  timestamp := 9
  canAcquire _ _ := true
  allowDuplicates := true

/-- Account 2 is no candidate. -/
theorem always_winners_sample :
    Machine.Always (process Config.sample) (fun s => getElectionWinners Config.sample s.gov =
      getElectionWinners Config.sample deadPeriodSample.gov) deadPeriodSample [sampleStake 2] := by
  have hsome : (Machine.exec (process Config.sample) deadPeriodSample [sampleStake 2]).isSome := by
    decide +kernel
  obtain ⟨r,hrun⟩ := isSome_iff_exists.mp hsome
  refine (always_winners_iff Config.sample (fun _ _ h => h) deadPeriodSample 11 (by decide +kernel)
    [sampleStake 2] (by simp [sampleStake]) hrun).mpr ⟨?_,fun _ _ _ => trivial⟩
  intro _ amount c _ hc
  cases hc

/-- Candidate 1 does the same and takes its votes away from the winners of epoch 10. -/
theorem stake_changes_winners :
    deadPeriodSample.gov.isDeadPeriod 11 = some true ∧
    getElectionWinners Config.sample deadPeriodSample.gov = [(1,⟨10,100,100,10,100⟩)] ∧
    (Machine.exec (process Config.sample) deadPeriodSample [sampleStake 1]).map
      (fun r => getElectionWinners Config.sample r.1.gov) = some [(1,⟨0,100,50,11,100⟩)] := by
  decide +kernel

end Sample

end Store

end LogosCore.Ledger
