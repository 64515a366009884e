import LogosCore.EpochTransition
import LogosCore.TopSets

/-! # The leading candidates

The winners of an election are read off a table that every write of a candidate maintains next to
the table of all candidates. When it holds the eight greatest, and which writes it does not
follow. -/
namespace LogosCore.Ledger

variable {H : Type} [DecidableEq H] [Zero H]

open Program
open Table (card leastOf mem_of_lookup)

/-- Candidates with the same votes and the same stake have different hashes. -/
def Config.DelegatesDiffer (cfg : Config H) : Prop :=
  ∀ a b votes stake,cfg.delegateHash a votes stake = cfg.delegateHash b votes stake → a = b

def greater (cfg : Config H) (p q : H × CandidateInfo) : Prop := candidateIsGreater cfg p q = true

instance (cfg : Config H) : DecidableRel (greater cfg) :=
  fun p q => inferInstanceAs (Decidable (candidateIsGreater cfg p q = true))

theorem greater_iff {cfg : Config H} {p q : H × CandidateInfo} :
    greater cfg p q ↔ q.2.votesReceivedWeighted < p.2.votesReceivedWeighted ∨
      p.2.votesReceivedWeighted = q.2.votesReceivedWeighted ∧ (q.2.curStake < p.2.curStake ∨
        p.2.curStake = q.2.curStake ∧
        cfg.delegateHash q.1 q.2.votesReceivedWeighted q.2.curStake <
          cfg.delegateHash p.1 p.2.votesReceivedWeighted p.2.curStake) := by
  unfold greater candidateIsGreater
  by_cases hvotes : p.2.votesReceivedWeighted = q.2.votesReceivedWeighted
  · by_cases hstake : p.2.curStake = q.2.curStake
    · simp [hvotes,hstake,BitVec.lt_irrefl]
    · simp [hvotes,hstake,BitVec.lt_irrefl]
  · simp [hvotes]

private theorem amount_lt_or_gt {a b : Amount} (h : a ≠ b) : a < b ∨ b < a := by
  bv_omega

theorem Config.DelegatesDiffer.ranked {cfg : Config H} (hcfg : cfg.DelegatesDiffer) :
    Table.Ranked (greater cfg) := by
  refine ⟨fun p => ?_,fun {p q r} hpq hqr => ?_,fun {p q} hne => ?_⟩
  · rw [greater_iff]
    simp [BitVec.lt_irrefl]
  · rw [greater_iff] at hpq hqr ⊢
    rcases hpq with hpq | ⟨hvotes,hpq⟩ <;> rcases hqr with hqr | ⟨hvotes',hqr⟩
    · exact .inl (BitVec.lt_trans hqr hpq)
    · exact .inl (hvotes' ▸ hpq)
    · exact .inl (hvotes ▸ hqr)
    · refine .inr ⟨hvotes.trans hvotes',?_⟩
      rcases hpq with hpq | ⟨hstake,hpq⟩ <;> rcases hqr with hqr | ⟨hstake',hqr⟩
      · exact .inl (BitVec.lt_trans hqr hpq)
      · exact .inl (hstake' ▸ hpq)
      · exact .inl (hstake ▸ hqr)
      · exact .inr ⟨hstake.trans hstake',lt_trans hqr hpq⟩
  · have hhash : p.2.votesReceivedWeighted = q.2.votesReceivedWeighted →
        p.2.curStake = q.2.curStake →
        cfg.delegateHash p.1 p.2.votesReceivedWeighted p.2.curStake ≠
          cfg.delegateHash q.1 q.2.votesReceivedWeighted q.2.curStake := by
      intro hvotes hstake heq
      rw [hvotes,hstake] at heq
      exact hne (hcfg _ _ _ _ heq)
    simp only [greater_iff]
    by_cases hvotes : p.2.votesReceivedWeighted = q.2.votesReceivedWeighted
    · by_cases hstake : p.2.curStake = q.2.curStake
      · rcases lt_or_gt_of_ne (hhash hvotes hstake) with hlt | hlt
        · exact .inr (.inr ⟨hvotes.symm,.inr ⟨hstake.symm,hlt⟩⟩)
        · exact .inl (.inr ⟨hvotes,.inr ⟨hstake,hlt⟩⟩)
      · rcases amount_lt_or_gt hstake with hlt | hlt
        · exact .inr (.inr ⟨hvotes.symm,.inl hlt⟩)
        · exact .inl (.inr ⟨hvotes,.inl hlt⟩)
    · rcases amount_lt_or_gt hvotes with hlt | hlt
      · exact .inr (.inl hlt)
      · exact .inl (.inl hlt)

variable (cfg : Config H)

/-- The leading candidates are the eight greatest, with their number and least one known. -/
structure GovernanceStore.Leads (g : GovernanceStore H) (all : Table H CandidateInfo) : Prop where
  top : Table.Top (greater cfg) maxLeadingCandidates all g.leadingCandidates
  size : g.leadingCandidatesSize = Table.card g.leadingCandidates
  least : g.leadingCandidatesSize = maxLeadingCandidates →
    Table.Least (greater cfg) g.leadingCandidates g.minLeadingCandidate

/-- The leading candidates are the eight greatest of all. -/
def GovernanceStore.TopEight (g : GovernanceStore H) : Prop := g.Leads cfg g.candidates

/-- A write must not take one of eight below the least, or the least below one outside. -/
def GovernanceStore.Follows (g : GovernanceStore H) (all : Table H CandidateInfo) (account : H)
    (info : CandidateInfo) : Prop :=
  g.leadingCandidatesSize = maxLeadingCandidates → account ∈ g.leadingCandidates →
    if account = g.minLeadingCandidate.1 then
      ∀ b d,all.lookup b = some d → b ∉ g.leadingCandidates → greater cfg (account,info) (b,d)
    else greater cfg (account,info) g.minLeadingCandidate

variable {cfg} {g : GovernanceStore H} {all : Table H CandidateInfo} {account : H}
  {info : CandidateInfo}

/-- After a recount only the table matters. -/
theorem leads_sync (hcfg : cfg.DelegatesDiffer)
    (h : Table.Top (greater cfg) maxLeadingCandidates all g.leadingCandidates) :
    (syncLeadingCandidates cfg g).Leads cfg all := by
  have hsize : (syncLeadingCandidates cfg g).leadingCandidatesSize = card g.leadingCandidates := by
    simp [syncLeadingCandidates,card,AList.keys,List.keys]
  refine ⟨h,hsize,fun hfull => ?_⟩
  cases hentries : g.leadingCandidates.entries.map fun e => (e.1,e.2) with
  | nil =>
    have hempty : card g.leadingCandidates = 0 := by
      rw [List.map_eq_nil_iff] at hentries
      simp [card,AList.keys,hentries]
    rw [hsize,hempty] at hfull
    exact absurd hfull (by decide)
  | cons p ps =>
    have hleast := Table.least_leastOf hcfg.ranked hentries
    have hmin : (syncLeadingCandidates cfg g).minLeadingCandidate = leastOf (greater cfg) p ps := by
      simp only [syncLeadingCandidates,hentries,leastOf]
      rfl
    rw [hmin]
    exact hleast

theorem GovernanceStore.Leads.room (h : g.Leads cfg all) (hnot : g.leadingCandidatesSize ≠ maxLeadingCandidates) :
    card g.leadingCandidates < maxLeadingCandidates := by
  have hsize := h.size
  have hcard := h.top.size
  omega

/-- A leading candidate that is not the least, or any of fewer than eight, is rewritten in place. -/
theorem leads_rewrite (hcfg : cfg.DelegatesDiffer) (h : g.Leads cfg all)
    (hmem : account ∈ g.leadingCandidates)
    (hmin : ¬(g.minLeadingCandidate.1 = account ∧ g.leadingCandidatesSize = maxLeadingCandidates)) :
    ({ g with leadingCandidates := g.leadingCandidates.insert account info }.Leads cfg
      (all.insert account info)) ↔ g.Follows cfg all account info := by
  have hsize := h.size
  constructor
  · intro h' hfull _
    have hne : account ≠ g.minLeadingCandidate.1 := fun heq => hmin ⟨heq.symm,hfull⟩
    rw [if_neg hne]
    exact (h'.least hfull).below (AList.lookup_insert _) hne
  · intro hfollows
    by_cases hfull : g.leadingCandidatesSize = maxLeadingCandidates
    · have hne : account ≠ g.minLeadingCandidate.1 := fun heq => hmin ⟨heq.symm,hfull⟩
      have habove := hfollows hfull hmem
      rw [if_neg hne] at habove
      have hleast := h.least hfull
      refine ⟨h.top.rewrite hmem fun b d hb hout => ?_,?_,fun _ => ⟨?_,fun {b d} hb hbne => ?_⟩⟩
      · exact hcfg.ranked.trans habove (h.top.above hleast.entry hb hout)
      · exact hsize.trans (Table.card_insert_of_mem hmem _).symm
      · show (g.leadingCandidates.insert account info).lookup _ = _
        rw [AList.lookup_insert_ne hne.symm]
        exact hleast.entry
      · rw [Table.lookup_insert_ite] at hb
        split at hb
        · next heq =>
          cases hb
          rw [heq]
          exact habove
        · exact hleast.below hb hbne
    · -- with fewer than eight every candidate leads
      refine ⟨h.top.rewrite hmem fun b d hb hout => ?_,?_,fun hfull' => absurd hfull' hfull⟩
      · exact absurd (h.top.mem_top (h.room hfull) (mem_of_lookup hb)) hout
      · exact hsize.trans (Table.card_insert_of_mem hmem _).symm

theorem updateLeadingCandidates_leads (hcfg : cfg.DelegatesDiffer) (h : g.Leads cfg all) :
    ∃ g',updateLeadingCandidates cfg account info g = some g' ∧ g'.candidates = g.candidates ∧
      (g'.Leads cfg (all.insert account info) ↔ g.Follows cfg all account info) := by
  have hrank := hcfg.ranked
  unfold updateLeadingCandidates
  by_cases hmem : account ∈ g.leadingCandidates
  · rw [if_pos hmem]
    by_cases hmin : g.minLeadingCandidate.1 = account ∧
        g.leadingCandidatesSize = maxLeadingCandidates
    · rw [if_pos hmin]
      refine ⟨_,rfl,rfl,fun h' _ _ => ?_,fun hfollows => ?_⟩
      · rw [if_pos hmin.1.symm]
        intro b d hb hout
        exact h'.top.above_of_rewrite hmem hb hout
      · have habove := hfollows hmin.2 hmem
        rw [if_pos hmin.1.symm] at habove
        exact leads_sync hcfg (h.top.rewrite hmem habove)
    · rw [if_neg hmin]
      exact ⟨_,rfl,rfl,leads_rewrite hcfg h hmem hmin⟩
  · rw [if_neg hmem]
    have hfollows : g.Follows cfg all account info := fun _ hin => absurd hin hmem
    by_cases hfull : g.leadingCandidatesSize = maxLeadingCandidates
    · have hleast := h.least hfull
      have hcard : card g.leadingCandidates = maxLeadingCandidates := h.size ▸ hfull
      rw [if_pos hfull]
      by_cases hgreater : candidateIsGreater cfg (account,info) g.minLeadingCandidate = true
      · rw [if_pos hgreater,if_pos (mem_of_lookup hleast.entry)]
        refine ⟨_,rfl,rfl,fun _ => hfollows,fun _ => leads_sync hcfg ?_⟩
        exact h.top.replace hrank hcard hmem hleast hgreater
      · rw [if_neg hgreater]
        refine ⟨_,rfl,rfl,fun _ => hfollows,fun _ => ⟨?_,h.size,fun _ => hleast⟩⟩
        have hne : account ≠ g.minLeadingCandidate.1 := fun heq =>
          hmem (heq ▸ mem_of_lookup hleast.entry)
        exact h.top.stay hrank hcard hmem hleast ((hrank.total hne).resolve_left hgreater)
    · rw [if_neg hfull]
      have hjoin := h.top.join (c := info) (h.room hfull) hmem
      have hgrown : g.leadingCandidatesSize + 1 =
          card (g.leadingCandidates.insert account info) := by
        rw [Table.card_insert_of_notMem hmem,h.size]
      dsimp only
      by_cases height : g.leadingCandidatesSize + 1 = maxLeadingCandidates
      · rw [if_pos height]
        exact ⟨_,rfl,rfl,fun _ => hfollows,fun _ => leads_sync hcfg hjoin⟩
      · rw [if_neg height]
        exact ⟨_,rfl,rfl,fun _ => hfollows,fun _ => ⟨hjoin,hgrown,fun hfull' => absurd hfull' height⟩⟩

/-- What changes the candidates between and at the ends of epochs. -/
inductive CandidateEvent (H : Type)
  | put (account : H) (info : CandidateInfo)
  | addVote (account : H) (weightedVote : Amount) (epoch : Epoch)
  | updateStake (account : H) (epoch : Epoch) (nextStake : Option Amount)
  | markRemove (account : H)
  | clear
deriving DecidableEq

namespace CandidateEvent

variable (cfg) in
def perform : CandidateEvent H → Gov H Unit
  | put account info => candidatePut cfg account info
  | addVote account weightedVote epoch => candidateAddVote cfg account weightedVote epoch
  | updateStake account epoch nextStake => updateCandidate cfg account epoch nextStake
  | markRemove account => modify fun g =>
      { g with removeCandidates := Ledger.markRemove cfg account g.removeCandidates }
  | clear => updateCandidatesDB

def written (g : GovernanceStore H) : CandidateEvent H → Option (H × CandidateInfo)
  | put account info => some (account,info)
  | addVote account weightedVote epoch => (g.candidates.lookup account).map fun info =>
      let info := info.transitionIfNecessary epoch
      (account,{ info with votesReceivedWeighted := info.votesReceivedWeighted + weightedVote })
  | updateStake account epoch nextStake => (g.candidates.lookup account).map fun info =>
      let info := info.transitionIfNecessary epoch
      (account,{ info with nextStake := nextStake.getD info.nextStake })
  | _ => none

variable (cfg) in
/-- A write follows the order, and a new start is made with no candidates left. -/
def Follows (g : GovernanceStore H) (e : CandidateEvent H) : Prop :=
  (∀ account info,e.written g = some (account,info) → g.Follows cfg g.candidates account info) ∧
    (e = clear → g.removeCandidates.Nodup → (∀ a ∈ g.removeCandidates,a ∈ g.candidates) →
      ∀ a ∈ g.candidates,a ∈ g.removeCandidates)

variable (cfg) in
def step (g : GovernanceStore H) (e : CandidateEvent H) : Option (GovernanceStore H × List Unit) :=
  ((e.perform cfg).run g).toOption.map fun r => (r.2,[])

section Step

variable {e : CandidateEvent H} {g' : GovernanceStore H} {o : List Unit}

/-- What an event writes it writes as `candidatePut` does. -/
theorem step_of_written (h : e.written g = some (account,info)) :
    step cfg g e = (updateLeadingCandidates cfg account info
      { g with candidates := g.candidates.insert account info }).map fun g' => (g',[]) := by
  have hperform : (e.perform cfg).run g = (candidatePut cfg account info).run g := by
    cases e with
    | put account' info' =>
      cases h
      rfl
    | addVote account' weightedVote epoch =>
      obtain ⟨c,hc,heq⟩ := Option.map_eq_some_iff.mp h
      cases heq
      simp only [perform,candidateAddVote,StateT.run_bind,StateT.run_get,pure_bind,hc]
    | updateStake account' epoch nextStake =>
      obtain ⟨c,hc,heq⟩ := Option.map_eq_some_iff.mp h
      cases heq
      simp only [perform,updateCandidate,StateT.run_bind,StateT.run_get,pure_bind,hc]
    | markRemove account' => cases h
    | clear => cases h
  have hput : (candidatePut cfg account info).run g =
      (need (updateLeadingCandidates cfg account info
        { g with candidates := g.candidates.insert account info }) .other >>= set :
          Gov H Unit).run g := rfl
  rw [step,hperform,hput]
  cases updateLeadingCandidates cfg account info
    { g with candidates := g.candidates.insert account info } <;> rfl

/-- The marked candidates are deleted and no others; the deletion of one that is not there halts. -/
theorem wp_removeMarkedCandidates {E : Halt → Prop} {marked : List H} {g : GovernanceStore H}
    (hE : ¬(marked.Nodup ∧ ∀ a ∈ marked,a ∈ g.candidates) → E .other) :
    (removeMarkedCandidates marked).wp E (fun _ g' => (marked.Nodup ∧ ∀ a ∈ marked,a ∈ g.candidates) ∧
      ∀ a,a ∈ g'.candidates ↔ a ∈ g.candidates ∧ a ∉ marked) g := by
  induction marked generalizing g with
  | nil => exact ⟨by simp,by simp⟩
  | cons account marked ih =>
    refine wp_bind.mpr (wp_bind.mpr (wp_get.mpr (wp_ite (fun hmem => wp_set.mpr ?_) fun hmem => ?_)))
    · have hrest : (marked.Nodup ∧ ∀ a ∈ marked,a ∈ g.candidates.erase account) ↔
          (account::marked).Nodup ∧ ∀ a ∈ account::marked,a ∈ g.candidates := by
        simp only [List.nodup_cons,List.forall_mem_cons,AList.mem_erase]
        constructor
        · intro h
          exact ⟨⟨fun hin => (h.2 account hin).1 rfl,h.1⟩,hmem,fun a ha => (h.2 a ha).2⟩
        · intro h
          exact ⟨h.1.2,fun a ha => ⟨fun heq => h.1.1 (heq ▸ ha),h.2.2 a ha⟩⟩
      refine (ih fun hnot => hE fun hall => hnot (hrest.mpr hall)).imp fun _ g' h => ?_
      refine ⟨hrest.mp h.1,fun a => ?_⟩
      rw [h.2]
      simp only [AList.mem_erase,List.mem_cons,not_or]
      tauto
    · exact hE fun hall => hmem (hall.2 account List.mem_cons_self)

theorem follows_of_written (h : e.written g = some (account,info)) :
    e.Follows cfg g ↔ g.Follows cfg g.candidates account info := by
  have hne : e ≠ clear := by
    rintro rfl
    cases h
  constructor
  · intro hfollows
    exact hfollows.1 account info h
  · intro hfollows
    refine ⟨fun account' info' h' => ?_,fun hclear => absurd hclear hne⟩
    cases h.symm.trans h'
    exact hfollows

theorem follows_of_idle (h : e.written g = none) (hne : e ≠ clear) : e.Follows cfg g :=
  ⟨fun _ _ h' => (by cases h.symm.trans h'),fun hclear => absurd hclear hne⟩

/-- A write never stops. -/
theorem step_written (hcfg : cfg.DelegatesDiffer) (h : g.TopEight cfg)
    (hwritten : e.written g = some (account,info)) :
    ∃ g',step cfg g e = some (g',[]) ∧ (g'.TopEight cfg ↔ e.Follows cfg g) := by
  have hleads : { g with candidates := g.candidates.insert account info }.Leads cfg g.candidates :=
    ⟨h.top,h.size,h.least⟩
  obtain ⟨g',hg',hcandidates,hiff⟩ := updateLeadingCandidates_leads hcfg hleads
  refine ⟨g',?_,?_⟩
  · rw [step_of_written hwritten,hg']
    rfl
  · rw [follows_of_written hwritten,GovernanceStore.TopEight,hcandidates]
    exact hiff

theorem step_eq_some : step cfg g e = some (g',o) ↔ (e.perform cfg).run g = .ok ((),g') ∧ o = [] := by
  unfold step
  cases (e.perform cfg).run g with
  | error halted => simp [Except.toOption]
  | ok r =>
    obtain ⟨_,g1⟩ := r
    simp [Except.toOption,eq_comm]

theorem step_eq_none (h : step cfg g e = none) : ∃ halted,(e.perform cfg).run g = .error halted := by
  unfold step at h
  cases hrun : (e.perform cfg).run g with
  | error halted => exact ⟨halted,rfl⟩
  | ok r =>
    rw [hrun] at h
    cases h

variable (cfg) in
theorem wp_clear {E : Halt → Prop} {g : GovernanceStore H} (hE : ¬(g.removeCandidates.Nodup ∧
    ∀ a ∈ g.removeCandidates,a ∈ g.candidates) → E .other) :
    (perform cfg clear).wp E (fun _ g' => (g.removeCandidates.Nodup ∧
      ∀ a ∈ g.removeCandidates,a ∈ g.candidates) ∧
      (g'.TopEight cfg ↔ ∀ a ∈ g.candidates,a ∈ g.removeCandidates)) g := by
  refine wp_bind.mpr (wp_get.mpr ((wp_removeMarkedCandidates hE).bind
    fun _ g1 h1 => wp_modify.mpr ⟨h1.1,?_⟩))
  have hnone : (∀ a,a ∉ g1.candidates) ↔ ∀ a ∈ g.candidates,a ∈ g.removeCandidates := by
    simp only [h1.2,not_and,not_not]
  have htop : Table.Top (greater cfg) maxLeadingCandidates g1.candidates ∅ ↔
      ∀ a,a ∉ g1.candidates := Table.top_empty_iff (by decide)
  rw [← hnone,← htop]
  constructor
  · intro h
    exact h.top
  · intro h
    exact ⟨h,rfl,fun hfull => absurd (show 0 = maxLeadingCandidates from hfull) (by decide)⟩

theorem step_topEight (hcfg : cfg.DelegatesDiffer) (h : g.TopEight cfg)
    (hstep : step cfg g e = some (g',o)) : g'.TopEight cfg ↔ e.Follows cfg g := by
  cases hwritten : e.written g with
  | some p =>
    obtain ⟨g1,hstep1,hiff⟩ := step_written hcfg h hwritten
    cases hstep.symm.trans hstep1
    exact hiff
  | none =>
    obtain ⟨hrun,-⟩ := step_eq_some.mp hstep
    cases e with
    | put account info => cases hwritten
    | addVote account weightedVote epoch =>
      have hnone : g.candidates.lookup account = none := Option.map_eq_none_iff.mp hwritten
      simp [perform,candidateAddVote,hnone,halt] at hrun
    | updateStake account epoch nextStake =>
      have hnone : g.candidates.lookup account = none := Option.map_eq_none_iff.mp hwritten
      simp [perform,updateCandidate,hnone] at hrun
      cases hrun
      exact iff_of_true h (follows_of_idle hwritten (by simp))
    | markRemove account =>
      cases hrun
      exact iff_of_true ⟨h.top,h.size,h.least⟩ (follows_of_idle hwritten (by simp))
    | clear =>
      obtain ⟨hmarked,hiff⟩ := (wp_clear cfg (E := fun _ => True) fun _ => trivial).run hrun
      rw [hiff]
      constructor
      · intro hall
        exact ⟨fun _ _ h' => (by cases h'),fun _ _ _ => hall⟩
      · intro hfollows
        exact hfollows.2 rfl hmarked.1 hmarked.2

theorem follows_of_stop (hcfg : cfg.DelegatesDiffer) (h : g.TopEight cfg)
    (hstep : step cfg g e = none) : e.Follows cfg g := by
  cases hwritten : e.written g with
  | some p =>
    obtain ⟨g1,hstep1,-⟩ := step_written hcfg h hwritten
    cases hstep.symm.trans hstep1
  | none =>
    by_cases hclear : e = clear
    · subst hclear
      refine ⟨fun _ _ h' => (by cases h'),fun _ hnodup hall => ?_⟩
      obtain ⟨halted,hrun⟩ := step_eq_none hstep
      have hnever := wp_clear cfg (E := fun _ => False) fun hnot => hnot ⟨hnodup,hall⟩
      exact ((wp_iff.mp hnever).2 halted hrun).elim
    · exact follows_of_idle hwritten hclear

end Step

variable (cfg) in
/-- From empty tables on the leaders are the eight greatest exactly where events follow the
order. -/
theorem always_topEight_iff (hcfg : cfg.DelegatesDiffer) (events : List (CandidateEvent H)) :
    Machine.Always (step cfg) (GovernanceStore.TopEight cfg) .empty events ↔
      Machine.Along (step cfg) (fun g e => e.Follows cfg g) .empty events := by
  have hempty : (GovernanceStore.empty : GovernanceStore H).TopEight cfg :=
    ⟨(Table.top_empty_iff (by decide)).mpr fun a ha => (by cases ha),rfl,
      fun hfull => absurd (show 0 = maxLeadingCandidates from hfull) (by decide)⟩
  exact Machine.always_iff_along (fun _ _ _ _ h hstep => step_topEight hcfg h hstep)
    (fun _ _ h hstep => follows_of_stop hcfg h hstep) hempty

section Sample

/-- The sample surrounding with hashes of candidates that differ. -/
def rankingConfig : Config ℕ := { Config.sample with delegateHash := fun account _ _ => account }

theorem rankingConfig_delegatesDiffer : rankingConfig.DelegatesDiffer :=
  fun _ _ _ _ h => h

/-- Candidates 1 to 9 announce themselves in epoch 10, each with more votes than the one before. -/
def sampleRun : List (CandidateEvent ℕ) :=
  [1,2,3,4,5,6,7,8,9].map fun account =>
    .put account ⟨BitVec.ofNat 128 (10 * account),100,100,10,100⟩

/-- New candidates always follow the order: candidate 9 takes the place of candidate 1. -/
theorem always_topEight_sampleRun :
    Machine.Always (step rankingConfig) (GovernanceStore.TopEight rankingConfig) .empty sampleRun ∧
    (Machine.exec (step rankingConfig) .empty sampleRun).map (fun r =>
      (r.1.leadingCandidatesSize,r.1.minLeadingCandidate.1,decide (1 ∈ r.1.leadingCandidates))) =
        some (8,2,false) := by
  refine ⟨(always_topEight_iff rankingConfig rankingConfig_delegatesDiffer sampleRun).mpr ?_,
    by decide +kernel⟩
  have hchecks : Machine.checks (step rankingConfig) (fun g e =>
      (e.written g).any fun c => decide (c.1 ∉ g.leadingCandidates)) .empty sampleRun = true := by
    decide +kernel
  refine Machine.along_mono (Machine.along_of_checks hchecks) fun g e hnew => ?_
  obtain ⟨⟨account,info⟩,hwritten⟩ : ∃ c,e.written g = some c := by
    cases hwritten : e.written g with
    | none => simp [hwritten] at hnew
    | some c => exact ⟨c,rfl⟩
  have hout : account ∉ g.leadingCandidates := by simpa [hwritten] using hnew
  refine (follows_of_written hwritten).mpr fun _ hmem => ?_
  exact absurd hmem hout

/-- Candidate 5 changes its stake in epoch 11, which drops its votes, and still leads although
candidate 1 has more. And a candidate left after a new start does not lead. -/
theorem leading_not_greatest :
    (Machine.exec (step rankingConfig) .empty (sampleRun ++ [updateStake 5 11 (some 50)])).map
      (fun r => ((r.1.leadingCandidates.lookup 5).map CandidateInfo.votesReceivedWeighted,
        (r.1.candidates.lookup 1).map CandidateInfo.votesReceivedWeighted,
        decide (1 ∈ r.1.leadingCandidates))) = some (some 0,some 10,false) ∧
    (Machine.exec (step rankingConfig) .empty [put 1 ⟨10,100,100,10,100⟩,clear]).map
      (fun r => ((r.1.candidates.lookup 1).isSome,r.1.leadingCandidatesSize)) = some (true,0) := by
  decide +kernel

end Sample

end CandidateEvent

end LogosCore.Ledger
