import LogosCore.Elections

/-! # Updates that run ahead of a vote

Near the end of an epoch the power of a representative is already updated for the next epoch
while its vote for the epoch may still come. What the vote reads then is the fallback record
that the first update of the new epoch leaves behind. -/
namespace LogosCore

open BitVec (lt_irrefl not_lt)

/-- The value a program returns from a state, if it returns. -/
def Program.value {ε S α : Type} (x : Program ε S α) (s : S) : Option α :=
  (x.run s).toOption.map Prod.fst

namespace Program

variable {ε S α : Type} {x : Program ε S α} {s : S} {a : α}

theorem exists_run_of_wp {Q : α → S → Prop} (h : x.wp (fun _ => False) Q s) :
    ∃ a s',x.run s = .ok (a,s') ∧ Q a s' := by
  unfold wp at h
  cases hrun : x.run s with
  | error e =>
    rw [hrun] at h
    exact h.elim
  | ok r =>
    rw [hrun] at h
    exact ⟨r.1,r.2,rfl,h⟩

theorem value_of_wp (h : x.wp (fun _ => False) (fun b _ => b = a) s) : x.value s = some a := by
  obtain ⟨b,s',hrun,rfl⟩ := exists_run_of_wp h
  simp [value,hrun,Except.toOption]

theorem value_none_of_wp (h : x.wp (fun _ => True) (fun _ _ => False) s) : x.value s = none := by
  unfold value
  cases hrun : x.run s with
  | error e => rfl
  | ok r => exact (h.run hrun).elim

end Program

namespace Ledger

open Option

variable {H : Type} [DecidableEq H] [Zero H]

open Program

def VotingPowerInfo.getTotalStake (info : VotingPowerInfo) : Amount :=
  info.current.lockedProxied + info.current.selfStake

def VotingPowerInfo.movedTo (info : VotingPowerInfo) (epoch : Epoch) : VotingPowerInfo :=
  { info with current := info.next,epochModified := epoch }

/-- The record as of an epoch, where it has not passed it. -/
def VotingPowerInfo.asOf (info : VotingPowerInfo) (epoch : Epoch) : VotingPowerInfo :=
  if info.epochModified < epoch then info.movedTo epoch else info

/-- The epoch of the last vote of a representative, if any; `none` if it is not stored. -/
def GovernanceStore.lastVote (g : GovernanceStore H) (repInfo : RepInfo H) :
    Option (Option Epoch) :=
  if repInfo.electionVoteTip = 0 then some none
  else match (g.requests.lookup repInfo.electionVoteTip).map Request.body with
    | some (.electionVote gov _) => some (some gov.epochNum)
    | _ => none

namespace VotingPowerManager

def update : StakeType → OpType → H → Amount → Epoch → Gov H Unit
  | .lockedProxy,.add => addLockedProxied
  | .lockedProxy,.subtract => subtractLockedProxied
  | .unlockedProxy,.add => addUnlockedProxied
  | .unlockedProxy,.subtract => subtractUnlockedProxied
  | .selfStake,.add => addSelfStake
  | .selfStake,.subtract => subtractSelfStake

theorem update_eq_modifyStored {ty : StakeType} {op : OpType} (h : ¬(ty = .selfStake ∧ op = .add)) :
    (update ty op : H → Amount → Epoch → Gov H Unit) = modifyStored ty op := by
  cases ty <;> cases op <;> first | rfl | simp at h

def applyUpdates (updates : List (StakeType × OpType × Amount)) (rep : H) (epoch : Epoch) :
    Gov H Unit :=
  updates.forM fun u => update u.1 u.2.1 rep u.2.2 epoch

/-- Read an amount of an epoch: from the record, or from the fallback if the record is ahead. -/
def readAmount (aside : VotingPowerFallback → Amount) (own : VotingPowerInfo → Amount) (rep : H)
    (epoch : Epoch) : Gov H Amount := do
  let info ← getVotingPowerInfo rep epoch
  if epoch < info.epochModified then do
    let g ← get
    match g.votingPowerFallback.lookup rep with
    | some f => pure (aside f)
    | none => halt .votingPower
  else pure (own info)

theorem getCurrentVotingPower_eq (rep : H) (epoch : Epoch) :
    getCurrentVotingPower rep epoch =
      readAmount VotingPowerFallback.power VotingPowerInfo.getPower rep epoch := rfl

theorem getCurrentTotalStake_eq (rep : H) (epoch : Epoch) :
    getCurrentTotalStake rep epoch =
      readAmount VotingPowerFallback.totalStake VotingPowerInfo.getTotalStake rep epoch := rfl

section Registered

variable {E : Halt → Prop} {g : GovernanceStore H} {rep : H} {repInfo : RepInfo H}
  {info : VotingPowerInfo} {epoch : Epoch}

omit [Zero H] in
theorem modify_zero (p : VotingPowerSnapshot) (ty : StakeType) (op : OpType) :
    p.modify ty op 0 = some p := by
  cases ty <;> simp [VotingPowerSnapshot.modify,OpType.apply]

variable {ty : StakeType} {op : OpType} {d : Amount}

/-- Only a change of an amount can fail. -/
theorem need_modify {Q : VotingPowerSnapshot → GovernanceStore H → Prop} {p : VotingPowerSnapshot}
    (hE : d ≠ 0 → E .votingPower) (hQ : ∀ p',Q p' g) :
    (need (p.modify ty op d) .votingPower : Gov H _).wp E Q g := by
  refine wp_need (fun hnone => hE fun hd => ?_) fun p' _ => hQ p'
  rw [hd,modify_zero] at hnone
  cases hnone

/-- What is put aside when the record of a representative moves on. -/
def leaveFallback (g : GovernanceStore H) (rep : H) (info : VotingPowerInfo) (kept : Bool) :
    GovernanceStore H :=
  { g with
    votingPowerFallback := if kept
      then g.votingPowerFallback.insert rep ⟨info.getPower,info.getTotalStake⟩
      else g.votingPowerFallback.erase rep }

variable (hrep : g.reps.lookup rep = some repInfo)
include hrep

/-- The power of the epoch before is kept as the fallback unless it was voted with. -/
theorem wp_handleFallback_of_rep {Q : Unit → GovernanceStore H → Prop}
    (hlost : g.lastVote repInfo = none → E .votingPower)
    (hvote : ∀ vote,g.lastVote repInfo = some vote →
      Q () (leaveFallback g rep info (vote.all (· < epoch - 1)))) :
    (handleFallback info rep epoch).wp E Q g := by
  unfold handleFallback
  unfold GovernanceStore.lastVote at hlost hvote
  simp only [wp_bind,wp_get,hrep]
  by_cases htip : repInfo.electionVoteTip = 0
  · simp only [if_pos htip] at hvote ⊢
    exact hvote none rfl
  · simp only [if_neg htip] at hlost hvote ⊢
    split
    · next gov votes hbody =>
      simp only [hbody,some.injEq,forall_eq',all_some,leaveFallback] at hvote
      refine wp_ite (fun hold => ?_) fun hold => ?_
      · rw [if_pos hold] at hvote
        exact hvote
      · rw [if_neg hold] at hvote
        exact hvote
    · next hbody =>
      refine hlost ?_
      split
      · next gov votes heq => exact absurd heq (hbody gov votes)
      · rfl

theorem wp_transitionIfNecessary_of_rep {Q : VotingPowerInfo × Bool → GovernanceStore H → Prop}
    (hstay : ¬info.epochModified < epoch → Q (info,false) g)
    (hlost : info.epochModified < epoch → g.lastVote repInfo = none → E .votingPower)
    (hmove : info.epochModified < epoch → ∀ vote,g.lastVote repInfo = some vote →
      Q (info.movedTo epoch,true) (leaveFallback g rep info (vote.all (· < epoch - 1)))) :
    (transitionIfNecessary info epoch rep).wp E Q g := by
  refine wp_ite (fun hlt => ?_) hstay
  exact wp_bind.mpr (wp_handleFallback_of_rep hrep (hlost hlt) (hmove hlt))

/-- The record of a representative is never pruned. -/
theorem wp_storeOrPrune_of_rep {Q : Unit → GovernanceStore H → Prop}
    (h : Q () { g with votingPower := g.votingPower.insert rep info }) :
    (storeOrPrune rep info).wp E Q g := by
  have hmem : rep ∈ g.reps := Table.mem_of_lookup hrep
  have hkeep : canPrune g rep info = false := by simp [canPrune,hmem]
  unfold storeOrPrune
  simp only [wp_bind,wp_get,hkeep]
  exact h

/-- What an update in an epoch does to the record of a representative and to its fallback. -/
structure Updated (rep : H) (repInfo : RepInfo H) (info : VotingPowerInfo) (epoch : Epoch)
    (g g' : GovernanceStore H) : Prop where
  reps : g'.reps = g.reps
  record : ∃ info',g'.votingPower.lookup rep = some info' ∧
    info'.epochModified = if info.epochModified < epoch then epoch else info.epochModified
  stays : ¬info.epochModified < epoch → g'.votingPowerFallback = g.votingPowerFallback
  moves : info.epochModified < epoch → ∃ vote,g.lastVote repInfo = some vote ∧
    g'.votingPowerFallback =
      (leaveFallback g rep info (vote.all (· < epoch - 1))).votingPowerFallback

theorem wp_modify_of_rep (hE : d ≠ 0 → E .votingPower)
    (hlost : info.epochModified < epoch → g.lastVote repInfo = none → E .votingPower) :
    (modify info rep ty op epoch d).wp E (fun info' g' =>
      info'.epochModified = (if info.epochModified < epoch then epoch else info.epochModified) ∧
      (¬info.epochModified < epoch → g' = g) ∧
      (info.epochModified < epoch → ∃ vote,g.lastVote repInfo = some vote ∧
        g' = leaveFallback g rep info (vote.all (· < epoch - 1)))) g := by
  refine wp_bind.mpr (wp_transitionIfNecessary_of_rep hrep (fun hstay => ?_) hlost
    fun hmove vote hvote => ?_)
  all_goals
    refine wp_ite (fun _ => ?_) fun _ => ?_
    all_goals
      refine wp_bind.mpr ?_
      first
        | refine need_modify hE fun _ => ?_
        | refine wp_pure.mpr ?_
      refine wp_bind.mpr (need_modify hE fun _ => ?_)
      first
        | exact ⟨(if_neg hstay).symm,fun _ => rfl,fun hmove => absurd hmove hstay⟩
        | exact ⟨(if_pos hmove).symm,fun hstay => absurd hmove hstay,fun _ => ⟨vote,hvote,rfl⟩⟩

theorem wp_modify_store_of_rep (hE : d ≠ 0 → E .votingPower)
    (hlost : info.epochModified < epoch → g.lastVote repInfo = none → E .votingPower) :
    (modify info rep ty op epoch d).wp E (fun info' => (storeOrPrune rep info').wp E
      fun _ => Updated rep repInfo info epoch g) g := by
  refine (wp_modify_of_rep hrep hE hlost).imp fun info' g' hmodified => ?_
  obtain ⟨hepoch,hstay,hmove⟩ := hmodified
  by_cases hlt : info.epochModified < epoch
  · obtain ⟨vote,hvote,rfl⟩ := hmove hlt
    have hrep' : (leaveFallback g rep info (vote.all (· < epoch - 1))).reps.lookup rep =
        some repInfo := hrep
    exact wp_storeOrPrune_of_rep hrep' ⟨rfl,⟨info',AList.lookup_insert _,hepoch⟩,
      fun hstay => absurd hlt hstay,fun _ => ⟨vote,hvote,rfl⟩⟩
  · cases hstay hlt
    exact wp_storeOrPrune_of_rep hrep ⟨rfl,⟨info',AList.lookup_insert _,hepoch⟩,fun _ => rfl,
      fun hmove => absurd hmove hlt⟩

variable (hinfo : g.votingPower.lookup rep = some info)
include hinfo

theorem wp_update_of_rep (hE : d ≠ 0 → E .votingPower)
    (hlost : info.epochModified < epoch → g.lastVote repInfo = none → E .votingPower) :
    (update ty op rep d epoch).wp E (fun _ => Updated rep repInfo info epoch g) g := by
  have hstored : ∀ ty op,(modifyStored ty op rep d epoch).wp E
      (fun _ => Updated rep repInfo info epoch g) g := by
    intro ty op
    unfold modifyStored
    simp only [wp_bind,wp_get,hinfo]
    exact wp_modify_store_of_rep hrep hE hlost
  by_cases hadd : ty = .selfStake ∧ op = .add
  · obtain ⟨rfl,rfl⟩ := hadd
    simp only [update,addSelfStake,wp_bind,wp_get,hinfo,getD_some]
    exact wp_modify_store_of_rep hrep hE hlost
  · rw [update_eq_modifyStored hadd]
    exact hstored ty op

/-- Once the record is ahead of the epoch, updates of the next epoch leave the fallback alone. -/
theorem wp_applyUpdates_ahead (hahead : epoch < info.epochModified)
    (updates : List (StakeType × OpType × Amount)) :
    (applyUpdates updates rep (epoch + 1)).wp (fun _ => True) (fun _ g' =>
      g'.reps = g.reps ∧ g'.votingPowerFallback = g.votingPowerFallback ∧
      ∃ info',g'.votingPower.lookup rep = some info' ∧ epoch < info'.epochModified) g := by
  refine wp_forM (fun u _ g1 h1 => ?_) ⟨rfl,rfl,info,hinfo,hahead⟩
  obtain ⟨hreps,hfallback,info1,hinfo1,hahead1⟩ := h1
  have hstay : ¬info1.epochModified < epoch + 1 := by bv_omega
  refine (wp_update_of_rep (hreps ▸ hrep) hinfo1 (fun _ => trivial) fun _ _ => trivial).imp
    fun _ g2 h2 => ?_
  obtain ⟨info2,hinfo2,hepoch⟩ := h2.record
  rw [if_neg hstay] at hepoch
  exact ⟨h2.reps.trans hreps,(h2.stays hstay).trans hfallback,info2,hinfo2,hepoch ▸ hahead1⟩

theorem wp_getVotingPowerInfo_of_rep {Q : VotingPowerInfo → GovernanceStore H → Prop}
    (hstay : ¬info.epochModified < epoch → Q info g)
    (hlost : info.epochModified < epoch → g.lastVote repInfo = none → E .votingPower)
    (hmove : info.epochModified < epoch → ∀ vote,g.lastVote repInfo = some vote →
      Q (info.movedTo epoch) { leaveFallback g rep info (vote.all (· < epoch - 1)) with
        votingPower := g.votingPower.insert rep (info.movedTo epoch) }) :
    (getVotingPowerInfo rep epoch).wp E Q g := by
  unfold getVotingPowerInfo
  simp only [wp_bind,wp_get,hinfo]
  refine wp_transitionIfNecessary_of_rep hrep hstay hlost fun hlt vote hvote => ?_
  have hrep' : (leaveFallback g rep info (vote.all (· < epoch - 1))).reps.lookup rep =
      some repInfo := hrep
  exact wp_bind.mpr (wp_storeOrPrune_of_rep hrep' (hmove hlt vote hvote))

section Read

variable {aside : VotingPowerFallback → Amount} {own : VotingPowerInfo → Amount}

/-- Ahead of the epoch only the fallback is read. -/
theorem value_ahead (hahead : epoch < info.epochModified) :
    (readAmount aside own rep epoch).value g = (g.votingPowerFallback.lookup rep).map aside := by
  have hstay : ¬info.epochModified < epoch := by bv_omega
  have hread : ∀ {E : Halt → Prop} {Q : Amount → GovernanceStore H → Prop},
      (∀ f ∈ g.votingPowerFallback.lookup rep,Q (aside f) g) →
      (g.votingPowerFallback.lookup rep = none → E .votingPower) →
      (readAmount aside own rep epoch).wp E Q g := by
    intro E Q hsome hnone
    refine wp_bind.mpr (wp_getVotingPowerInfo_of_rep hrep hinfo (fun _ => ?_)
      (fun hlt => absurd hlt hstay) fun hlt => absurd hlt hstay)
    rw [if_pos hahead,wp_bind,wp_get]
    cases hf : g.votingPowerFallback.lookup rep with
    | none => exact hnone hf
    | some f => exact hsome f hf
  cases hf : g.votingPowerFallback.lookup rep with
  | none => exact value_none_of_wp (hread (by simp [hf]) fun _ => trivial)
  | some f => exact value_of_wp (hread (by simp [hf]) (by simp [hf]))

/-- Up to the epoch the record is read, as of the epoch. -/
theorem value_current (hreached : info.epochModified ≤ epoch) (hvote : g.lastVote repInfo ≠ none) :
    (readAmount aside own rep epoch).value g = some (own (info.asOf epoch)) := by
  unfold VotingPowerInfo.asOf
  refine value_of_wp (wp_bind.mpr (wp_getVotingPowerInfo_of_rep hrep hinfo (fun hstay => ?_)
    (fun _ hnone => hvote hnone) fun hmove vote _ => ?_))
  · have hcurrent : ¬epoch < info.epochModified := not_lt.mpr hreached
    rw [if_neg hcurrent,if_neg hstay]
    exact rfl
  · have hcurrent : ¬epoch < (info.movedTo epoch).epochModified := lt_irrefl _
    rw [if_neg hcurrent,if_pos hmove]
    exact rfl

/-- After the first update of the next epoch the fallback is what the record held before. -/
theorem value_after (hreached : info.epochModified ≤ epoch) (hnext : epoch < epoch + 1)
    {vote : Option Epoch} (hvote : g.lastVote repInfo = some vote)
    (haside : ∀ info : VotingPowerInfo,aside ⟨info.getPower,info.getTotalStake⟩ = own info)
    {u : StakeType × OpType × Amount} {updates : List (StakeType × OpType × Amount)}
    {g' : GovernanceStore H} (hrun : (applyUpdates (u::updates) rep (epoch + 1)).run g = .ok ((),g')) :
    (readAmount aside own rep epoch).value g' =
      if vote.all (· < epoch) then some (own info) else none := by
  have hmove : info.epochModified < epoch + 1 := by bv_omega
  have hback : epoch + 1 - 1 = epoch := by bv_omega
  suffices hwp : (update u.1 u.2.1 rep u.2.2 (epoch + 1)).wp (fun _ => True)
      (fun _ => (applyUpdates updates rep (epoch + 1)).wp (fun _ => True) fun _ g' =>
        (readAmount aside own rep epoch).value g' =
          if vote.all (· < epoch) then some (own info) else none) g from
    (wp_bind.mpr hwp).run hrun
  refine (wp_update_of_rep hrep hinfo (fun _ => trivial) fun _ _ => trivial).imp fun _ g1 h1 => ?_
  obtain ⟨info1,hinfo1,hepoch⟩ := h1.record
  rw [if_pos hmove] at hepoch
  have hrep1 : g1.reps.lookup rep = some repInfo := h1.reps ▸ hrep
  refine (wp_applyUpdates_ahead hrep1 hinfo1 (hepoch ▸ hnext) updates).imp fun _ g2 h2 => ?_
  obtain ⟨hreps2,hfallback2,info2,hinfo2,hahead2⟩ := h2
  obtain ⟨vote',hvote',hfallback1⟩ := h1.moves hmove
  cases hvote.symm.trans hvote'
  rw [value_ahead (hreps2 ▸ hrep1) hinfo2 hahead2,hfallback2,hfallback1,hback]
  cases hall : vote.all (· < epoch) with
  | true => simp [leaveFallback,haside]
  | false => simp [leaveFallback]

/-- Reading an amount leaves the record as of the epoch behind. -/
theorem wp_readAmount (hvote : g.lastVote repInfo ≠ none)
    (hfallback : epoch < info.epochModified → g.votingPowerFallback.lookup rep = none →
      E .votingPower) :
    (readAmount aside own rep epoch).wp E (fun _ g' =>
      g'.votingPower.lookup rep = some (info.asOf epoch) ∧ g'.reps = g.reps ∧
      (epoch < info.epochModified → (g.votingPowerFallback.lookup rep).isSome)) g := by
  unfold VotingPowerInfo.asOf
  refine wp_bind.mpr (wp_getVotingPowerInfo_of_rep hrep hinfo (fun hstay => ?_)
    (fun _ hnone => absurd hnone hvote) fun hmove vote _ => ?_)
  · rw [if_neg hstay]
    refine wp_ite (fun hahead => ?_) fun hcurrent => ⟨hinfo,rfl,fun hahead => absurd hahead hcurrent⟩
    rw [wp_bind,wp_get]
    cases hf : g.votingPowerFallback.lookup rep with
    | none => exact hfallback hahead hf
    | some f => exact ⟨hinfo,rfl,fun _ => rfl⟩
  · have hcurrent : ¬epoch < (info.movedTo epoch).epochModified := lt_irrefl _
    rw [if_neg hcurrent,if_pos hmove]
    refine ⟨AList.lookup_insert _,rfl,fun hahead => ?_⟩
    exact absurd (BitVec.lt_trans hmove hahead) (lt_irrefl _)

end Read

omit hrep hinfo

/-- Updates of the next epoch change neither the power nor the stake of an epoch. -/
def Independent (g : GovernanceStore H) (rep : H) (epoch : Epoch) : Prop :=
  ∀ updates g',(applyUpdates updates rep (epoch + 1)).run g = .ok ((),g') →
    (getCurrentVotingPower rep epoch).value g' = (getCurrentVotingPower rep epoch).value g ∧
    (getCurrentTotalStake rep epoch).value g' = (getCurrentTotalStake rep epoch).value g

/-- The record has moved on, or it holds the power of the epoch and there was no vote in it. -/
def Unaffected (g : GovernanceStore H) (repInfo : RepInfo H) (info : VotingPowerInfo)
    (epoch : Epoch) : Prop :=
  epoch < info.epochModified ∨ g.lastVote repInfo = none ∨
    ∃ vote,g.lastVote repInfo = some vote ∧ vote.all (· < epoch) ∧
      (info.epochModified = epoch ∨ (info.movedTo epoch).getPower = info.getPower ∧
        (info.movedTo epoch).getTotalStake = info.getTotalStake)

theorem Unaffected.independent (h : Unaffected g repInfo info epoch)
    (hrep : g.reps.lookup rep = some repInfo) (hinfo : g.votingPower.lookup rep = some info)
    (hnext : epoch < epoch + 1) : Independent g rep epoch := by
  intro updates g' hrun
  rw [getCurrentVotingPower_eq,getCurrentTotalStake_eq]
  by_cases hahead : epoch < info.epochModified
  · obtain ⟨hreps,hfallback,info',hinfo',hahead'⟩ :=
      (wp_applyUpdates_ahead hrep hinfo hahead updates).run hrun
    have hrep' : g'.reps.lookup rep = some repInfo := hreps ▸ hrep
    rw [value_ahead hrep' hinfo' hahead',value_ahead hrep' hinfo' hahead',
      value_ahead hrep hinfo hahead,value_ahead hrep hinfo hahead,hfallback]
    exact ⟨rfl,rfl⟩
  · have hreached : info.epochModified ≤ epoch := not_lt.mp hahead
    cases updates with
    | nil =>
      cases hrun
      exact ⟨rfl,rfl⟩
    | cons u updates =>
      rcases h with hahead' | hlost | ⟨vote,hvote,hunused,hsame⟩
      · exact absurd hahead' hahead
      · -- the first update halts
        have hmove : info.epochModified < epoch + 1 := by bv_omega
        have hhalt : (applyUpdates (u::updates) rep (epoch + 1)).wp (fun _ => True)
            (fun _ _ => False) g := by
          refine (wp_update_of_rep hrep hinfo (fun _ => trivial)
            fun _ _ => trivial).bind fun _ g1 h1 => ?_
          obtain ⟨vote,hvote,-⟩ := h1.moves hmove
          cases hlost.symm.trans hvote
        exact (hhalt.run hrun).elim
      · have hstored : g.lastVote repInfo ≠ none := by simp [hvote]
        rw [value_after hrep hinfo hreached hnext hvote (fun _ => rfl) hrun,
          value_after hrep hinfo hreached hnext hvote (fun _ => rfl) hrun,
          value_current hrep hinfo hreached hstored,value_current hrep hinfo hreached hstored,
          if_pos hunused,if_pos hunused]
        unfold VotingPowerInfo.asOf
        by_cases hmoved : info.epochModified < epoch
        · rcases hsame with heq | ⟨hpower,hstake⟩
          · exact absurd (heq ▸ hmoved) (lt_irrefl _)
          · rw [if_pos hmoved,hpower,hstake]
            exact ⟨rfl,rfl⟩
        · rw [if_neg hmoved]
          exact ⟨rfl,rfl⟩

/-- An update by nothing is accepted, and it is enough to see the difference. -/
theorem Independent.unaffected (h : Independent g rep epoch)
    (hrep : g.reps.lookup rep = some repInfo) (hinfo : g.votingPower.lookup rep = some info)
    (hnext : epoch < epoch + 1) : Unaffected g repInfo info epoch := by
  by_cases hahead : epoch < info.epochModified
  · exact .inl hahead
  · have hreached : info.epochModified ≤ epoch := not_lt.mp hahead
    cases hvote : g.lastVote repInfo with
    | none => exact .inr (.inl hvote)
    | some vote =>
      have hstored : g.lastVote repInfo ≠ none := by simp [hvote]
      have hzero : (applyUpdates [(.selfStake,.add,0)] rep (epoch + 1)).wp (fun _ => False)
          (fun _ _ => True) g :=
        (wp_update_of_rep hrep hinfo (fun hne => hne rfl)
          fun _ hlost => hstored hlost).bind fun _ _ _ => trivial
      obtain ⟨_,g',hrun,-⟩ := exists_run_of_wp hzero
      obtain ⟨hpower,hstake⟩ := h _ _ hrun
      rw [getCurrentVotingPower_eq,value_after hrep hinfo hreached hnext hvote (fun _ => rfl) hrun,
        value_current hrep hinfo hreached hstored] at hpower
      rw [getCurrentTotalStake_eq,value_after hrep hinfo hreached hnext hvote (fun _ => rfl) hrun,
        value_current hrep hinfo hreached hstored] at hstake
      by_cases hunused : vote.all (· < epoch) = true
      · rw [if_pos hunused,some_inj] at hpower hstake
        refine .inr (.inr ⟨vote,hvote,hunused,?_⟩)
        unfold VotingPowerInfo.asOf at hpower hstake
        by_cases hmoved : info.epochModified < epoch
        · rw [if_pos hmoved] at hpower hstake
          exact .inr ⟨hpower.symm,hstake.symm⟩
        · exact .inl (BitVec.le_antisymm hreached (not_lt.mp hmoved))
      · rw [if_neg hunused] at hpower
        cases hpower

end Registered
end VotingPowerManager

section Vote

open VotingPowerManager

variable (cfg : Config H)

def GovernanceStore.OnlyCandidates (g g' : GovernanceStore H) : Prop :=
  g' = { g with
    candidates := g'.candidates
    leadingCandidates := g'.leadingCandidates
    leadingCandidatesSize := g'.leadingCandidatesSize
    minLeadingCandidate := g'.minLeadingCandidate }

/-- The state in which a vote reads its voting power: it is stored, and it is the last one. -/
def GovernanceStore.voting (g : GovernanceStore H) (r : Request H) (repInfo : RepInfo H) :
    GovernanceStore H :=
  { g with
    requests := g.requests.insert (cfg.requestHash r) r
    reps := g.reps.insert r.origin { repInfo with electionVoteTip := cfg.requestHash r } }

variable {E : Halt → Prop} {g : GovernanceStore H}

variable {cfg}

theorem onlyCandidates_updateLeadingCandidates {account : H} {info : CandidateInfo}
    {g' : GovernanceStore H} (h : updateLeadingCandidates cfg account info g = some g') :
    g.OnlyCandidates g' := by
  simp only [updateLeadingCandidates] at h
  split at h
  · split at h <;> cases h <;> rfl
  · split at h
    · split at h
      · split at h
        · cases h
          rfl
        · cases h
      · cases h
        rfl
    · cases h
      split <;> rfl

theorem onlyCandidates_candidateAddVote (hE : E .other) (account : H) (weightedVote : Amount)
    (epoch : Epoch) : (candidateAddVote cfg account weightedVote epoch).wp E
      (fun _ g' => g.OnlyCandidates g') g := by
  unfold candidateAddVote
  rw [wp_bind,wp_get]
  cases g.candidates.lookup account with
  | none => exact hE
  | some info =>
    unfold candidatePut
    rw [wp_bind,wp_get]
    refine wp_bind.mpr (wp_need (fun _ => hE) fun g' hg' => ?_)
    have honly := onlyCandidates_updateLeadingCandidates hg'
    unfold GovernanceStore.OnlyCandidates at honly ⊢
    rw [wp_set,honly]

theorem voting_lastVote {r : Request H} {repInfo : RepInfo H} {gov : Governance H}
    {votes : List (CandidateVotePair H)} (hbody : r.body = .electionVote gov votes) :
    (g.voting cfg r repInfo).lastVote { repInfo with electionVoteTip := cfg.requestHash r } ≠ none := by
  unfold GovernanceStore.lastVote GovernanceStore.voting
  by_cases hzero : cfg.requestHash r = 0
  · simp [hzero]
  · simp [hzero,AList.lookup_insert,hbody]

variable (cfg) in
/-- The stake a vote stores for the rewards is that of the record as of the epoch. -/
theorem wp_applyElectionVote {r : Request H} {repInfo : RepInfo H} {info : VotingPowerInfo}
    {gov : Governance H} {votes : List (CandidateVotePair H)} (account : AccountInfo H)
    (hrep : g.reps.lookup r.origin = some repInfo)
    (hinfo : g.votingPower.lookup r.origin = some info) (hbody : r.body = .electionVote gov votes)
    (hother : votes ≠ [] → E .other) (hfallback : gov.epochNum < info.epochModified →
      g.votingPowerFallback.lookup r.origin = none → E .votingPower) :
    (applyElectionVote cfg r gov votes account).wp E (fun _ g' =>
      ∃ rewards,g'.rewards.lookup (r.origin,gov.epochNum) = some rewards ∧
        rewards.totalStake = (info.asOf gov.epochNum).getTotalStake ∧
        (gov.epochNum < info.epochModified → (g.votingPowerFallback.lookup r.origin).isSome)) g := by
  unfold applyElectionVote requestPut
  simp only [wp_bind,wp_modify,wp_get,wp_set,getCurrentVotingPower_eq,hrep,need,wp_pure]
  have hrep1 : (g.voting cfg r repInfo).reps.lookup r.origin =
      some { repInfo with electionVoteTip := cfg.requestHash r } := AList.lookup_insert _
  refine (wp_readAmount hrep1 hinfo (voting_lastVote hbody) hfallback).imp fun power g1 h1 => ?_
  obtain ⟨hinfo1,hreps1,hkept⟩ := h1
  have hvotes : (votes.forM fun p => candidateAddVote cfg p.account
      (p.numVotes.setWidth 128 * power) gov.epochNum).wp E (fun _ g' => g'.reps = g1.reps ∧
        g'.votingPower = g1.votingPower) g1 := by
    refine wp_forM (fun p hp g2 h2 => ?_) ⟨rfl,rfl⟩
    refine (onlyCandidates_candidateAddVote (hother (List.ne_nil_of_mem hp)) ..).imp
      fun _ g3 h3 => ?_
    rw [h3]
    exact h2
  refine hvotes.bind fun _ g2 h2 => ?_
  have hrep2 : g2.reps.lookup r.origin =
      some { repInfo with electionVoteTip := cfg.requestHash r } := by
    rw [h2.1,hreps1,hrep1]
  have hreached : ¬(info.asOf gov.epochNum).epochModified < gov.epochNum := by
    unfold VotingPowerInfo.asOf
    split
    · exact lt_irrefl _
    · assumption
  refine wp_bind.mpr (wp_getVotingPowerInfo_of_rep hrep2 (h2.2 ▸ hinfo1) (fun _ => ?_)
    (fun hlt => absurd hlt hreached) fun hlt => absurd hlt hreached)
  exact ⟨_,AList.lookup_insert _,BitVec.add_comm _ _,hkept⟩

variable (cfg) in
/-- The stake that a vote of an epoch stores for the rewards is the one its power rests on. -/
def SnapshotAgrees (g : GovernanceStore H) (rep : H) (epoch : Epoch) : Prop :=
  ∀ (r : Request H) (repInfo : RepInfo H) (gov : Governance H) (votes : List (CandidateVotePair H))
    (account account' : AccountInfo H) (g' : GovernanceStore H),
    r.origin = rep → r.body = .electionVote gov votes → gov.epochNum = epoch →
    g.reps.lookup rep = some repInfo →
    (applyElectionVote cfg r gov votes account).run g = .ok (account',g') →
    ∃ rewards,g'.rewards.lookup (rep,epoch) = some rewards ∧
      (getCurrentTotalStake rep epoch).value (g.voting cfg r repInfo) = some rewards.totalStake

theorem snapshotAgrees_iff {rep : H} {repInfo : RepInfo H} {info : VotingPowerInfo} {epoch : Epoch}
    (hrep : g.reps.lookup rep = some repInfo) (hinfo : g.votingPower.lookup rep = some info) :
    SnapshotAgrees cfg g rep epoch ↔ (epoch < info.epochModified →
      ∀ f ∈ g.votingPowerFallback.lookup rep,f.totalStake = info.getTotalStake) := by
  constructor
  · intro h hahead f hf
    let r : Request H := ⟨rep,0,0,0,0,0,.electionVote ⟨epoch,0⟩ []⟩
    have hkept : g.votingPowerFallback.lookup rep ≠ none := by simp [mem_def.mp hf]
    obtain ⟨account',g',hrun,rewards,hrewards,htotal,-⟩ := exists_run_of_wp
      (wp_applyElectionVote cfg (E := fun _ => False) (r := r) .default hrep hinfo rfl (fun hne => hne rfl)
        fun _ hnone => hkept hnone)
    obtain ⟨rewards',hrewards',hvalue⟩ := h r repInfo _ _ _ _ _ rfl rfl rfl hrep hrun
    cases hrewards.symm.trans hrewards'
    have hrep' : (g.voting cfg r repInfo).reps.lookup rep =
        some { repInfo with electionVoteTip := cfg.requestHash r } := AList.lookup_insert _
    have hinfo' : (g.voting cfg r repInfo).votingPower.lookup rep = some info := hinfo
    have hf' : (g.voting cfg r repInfo).votingPowerFallback.lookup rep = some f := hf
    rw [getCurrentTotalStake_eq,value_ahead hrep' hinfo' hahead,hf',htotal] at hvalue
    have hstay : ¬info.epochModified < epoch := by bv_omega
    have hasOf : info.asOf epoch = info := if_neg hstay
    rw [← hasOf]
    exact some.inj hvalue
  · rintro h r repInfo' gov votes account account' g' rfl hbody rfl hrep' hrun
    cases hrep.symm.trans hrep'
    obtain ⟨rewards,hrewards,htotal,hkept⟩ := (wp_applyElectionVote cfg (E := fun _ => True)
      account hrep hinfo hbody (fun _ => trivial) fun _ _ => trivial).run hrun
    refine ⟨rewards,hrewards,?_⟩
    have hrep1 : (g.voting cfg r repInfo).reps.lookup r.origin =
        some { repInfo with electionVoteTip := cfg.requestHash r } := AList.lookup_insert _
    have hinfo1 : (g.voting cfg r repInfo).votingPower.lookup r.origin = some info := hinfo
    rw [getCurrentTotalStake_eq,htotal]
    by_cases hahead : gov.epochNum < info.epochModified
    · have hstay : ¬info.epochModified < gov.epochNum := by bv_omega
      have hasOf : info.asOf gov.epochNum = info := if_neg hstay
      have hfallback : (g.voting cfg r repInfo).votingPowerFallback = g.votingPowerFallback := rfl
      rw [value_ahead hrep1 hinfo1 hahead,hasOf,hfallback]
      obtain ⟨f,hf⟩ := isSome_iff_exists.mp (hkept hahead)
      rw [hf]
      exact congrArg some (h hahead f hf)
    · exact value_current hrep1 hinfo1 (not_lt.mp hahead) (voting_lastVote hbody)

variable (cfg) in
/-- Power and stake of an epoch do not depend on early updates, and votes store the stake they use,
exactly where the record is of the epoch or holds the same power for the next and there was no vote;
or where it has moved on and the fallback holds the same stake. -/
theorem independent_and_snapshotAgrees_iff {rep : H} {repInfo : RepInfo H} {info : VotingPowerInfo}
    {epoch : Epoch} (hrep : g.reps.lookup rep = some repInfo)
    (hinfo : g.votingPower.lookup rep = some info) (hnext : epoch < epoch + 1) :
    Independent g rep epoch ∧ SnapshotAgrees cfg g rep epoch ↔
      Unaffected g repInfo info epoch ∧ (epoch < info.epochModified →
        ∀ f ∈ g.votingPowerFallback.lookup rep,f.totalStake = info.getTotalStake) := by
  rw [snapshotAgrees_iff hrep hinfo]
  constructor
  · intro h
    exact ⟨h.1.unaffected hrep hinfo hnext,h.2⟩
  · intro h
    exact ⟨h.1.independent hrep hinfo hnext,h.2⟩

section Sample

/-- Representative 1 has never voted; its record was last modified in the given epoch. -/
def GovernanceStore.raceSample (epoch : Epoch) : GovernanceStore ℕ :=
  { GovernanceStore.empty with
    reps := AList.insert 1 ⟨0,0,0,0⟩ ∅
    votingPower := AList.insert 1 ⟨⟨0,0,100⟩,⟨0,0,120⟩,epoch⟩ ∅ }

/-- A record that is up to date when the updates begin. -/
theorem independent_raceSample : Independent (GovernanceStore.raceSample 10) 1 10 ∧
    SnapshotAgrees Config.sample (GovernanceStore.raceSample 10) 1 10 := by
  have hrep : (GovernanceStore.raceSample 10).reps.lookup 1 = some ⟨0,0,0,0⟩ := rfl
  have hinfo : (GovernanceStore.raceSample 10).votingPower.lookup 1 =
      some ⟨⟨0,0,100⟩,⟨0,0,120⟩,10⟩ := rfl
  refine (independent_and_snapshotAgrees_iff Config.sample hrep hinfo (by decide)).mpr ⟨?_,?_⟩
  · exact .inr (.inr ⟨none,rfl,rfl,.inl rfl⟩)
  · intro hahead
    exact absurd hahead (by decide)

/-- A record last modified in epoch 8 gives power 120 in epoch 10, but after an update of epoch 11
the fallback says 100. With a record of epoch 10 the fallback is right, but the vote stores the
stake of epoch 11. -/
theorem early_update_changes_power :
    (getCurrentVotingPower 1 10).value (GovernanceStore.raceSample 8) = some 120 ∧
    ((applyUpdates [(.selfStake,.add,5)] 1 11).run (GovernanceStore.raceSample 8)).toOption.bind
      (fun r => (getCurrentVotingPower 1 10).value r.2) = some 100 ∧
    ((applyUpdates [(.selfStake,.add,5)] 1 11).run (GovernanceStore.raceSample 10)).toOption.bind
      (fun r => (getCurrentTotalStake 1 10).value r.2) = some 100 ∧
    (((applyUpdates [(.selfStake,.add,5)] 1 11 >>= fun _ => applyElectionVote Config.sample
      ⟨1,0,0,0,0,7,.electionVote ⟨10,0⟩ []⟩ ⟨10,0⟩ [] .default).run
        (GovernanceStore.raceSample 10)).toOption.bind
      fun r => r.2.rewards.lookup (1,10)).map RewardsInfo.totalStake = some 120 := by
  decide +kernel

end Sample

end Vote
end Ledger
end LogosCore
