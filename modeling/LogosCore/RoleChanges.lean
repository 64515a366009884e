import LogosCore.Decomposition
import LogosCore.EpochFrames

/-! # Changes of roles and stakes

Eight kinds of requests make an account a representative, a candidate or neither, or move its
stake. What each of them writes to the tables that decide this is collected in one description,
which every request that is processed meets. -/
namespace LogosCore.Ledger

variable {H : Type} [DecidableEq H] [Zero H]

open Program

/-- The tables that decide which role an account has. -/
def GovernanceStore.roles (g : GovernanceStore H) := (g.reps,g.requests,g.epochs,g.epochTip)

/-- The roles of all accounts and their stakes. -/
def GovernanceStore.standing (g : GovernanceStore H) := (g.roles,g.stakes)

instance : StakeApart (H := H) GovernanceStore.roles where
  power h := by rw [h]; rfl
  liabilities h := by rw [h]; rfl
  thawing _ _ := rfl
  rewards _ _ _ := rfl
  stakes _ _ := rfl

instance : Apart (H := H) GovernanceStore.stakes where
  power h := by rw [h]
  liabilities h := by rw [h]
  thawing _ _ := rfl
  rewards _ _ _ := rfl

instance : Apart (H := H) GovernanceStore.standing where
  power h := by rw [h]; rfl
  liabilities h := by rw [h]; rfl
  thawing _ _ := rfl
  rewards _ _ _ := rfl

namespace Body

/-- The target and the amount of the stake that a request sets. -/
def setsStake (origin : H) : Body H → Option (H × Amount)
  | proxy _ lockProxy rep => some (rep,lockProxy)
  | stake _ amount => some (origin,amount)
  | unstake _ => some (origin,0)
  | announceCandidacy _ setStake _ => setStake.map (origin,·)
  | renounceCandidacy _ setStake => setStake.map (origin,·)
  | startRepresenting _ setStake _ => setStake.map (origin,·)
  | stopRepresenting _ setStake => setStake.map (origin,·)
  | _ => none

/-- The record of a representative after its request with the given hash. -/
def repAfter (hash : H) (own : Option (RepInfo H)) : Body H → Option (RepInfo H)
  | startRepresenting _ _ levy => some ⟨0,0,hash,levy⟩
  | stopRepresenting _ _ => own.map ({ · with repActionTip := hash })
  | electionVote _ _ => own.map ({ · with electionVoteTip := hash })
  | announceCandidacy _ _ levy =>
    some { own.getD ⟨hash,0,hash,levy⟩ with candidacyActionTip := hash }
  | renounceCandidacy _ _ => own.map ({ · with candidacyActionTip := hash })
  | _ => own

end Body

variable (cfg : Config H)

structure GovernanceStore.Entered (g : GovernanceStore H) (r : Request H)
    (g' : GovernanceStore H) : Prop where
  reps : ∀ c,g'.reps.lookup c =
    if c = r.origin then r.body.repAfter (cfg.requestHash r) (g.reps.lookup c) else g.reps.lookup c
  requests : ∀ h,g'.requests.lookup h =
    if h = cfg.requestHash r then some r else g.requests.lookup h
  epochs : g'.epochs = g.epochs
  epochTip : g'.epochTip = g.epochTip

structure GovernanceStore.Governed (g : GovernanceStore H) (r : Request H)
    (g' : GovernanceStore H) : Prop extends g.Entered cfg r g' where
  others : ∀ c,c ≠ r.origin → g'.stakes.lookup c = g.stakes.lookup c
  unset : r.body.setsStake r.origin = none → g'.stakes.lookup r.origin = g.stakes.lookup r.origin
  own : ∀ p ∈ r.body.setsStake r.origin,p.2 ≠ 0 →
    ∃ hash,g'.stakes.lookup r.origin = some ⟨p.1,p.2,hash⟩

variable {cfg}

section Apply

open StakingManager (anyHalt)

variable {g g1 g' : GovernanceStore H} {r : Request H}

theorem GovernanceStore.Entered.of_roles (h : g.Entered cfg r g1) (hroles : g'.roles = g1.roles) :
    g.Entered cfg r g' := by
  simp only [roles,Prod.mk.injEq] at hroles
  obtain ⟨hreps,hrequests,hepochs,htip⟩ := hroles
  constructor
  · simpa only [hreps] using h.reps
  · simpa only [hrequests] using h.requests
  · exact hepochs.trans h.epochs
  · exact htip.trans h.epochTip

/-- Only the stake is missing. -/
theorem GovernanceStore.Entered.governed (h : g.Entered cfg r g') (hstakes : g'.stakes = g.stakes)
    (hnone : r.body.setsStake r.origin = none) : g.Governed cfg r g' where
  toEntered := h
  others c _ := by rw [hstakes]
  unset _ := by rw [hstakes]
  own p hp := by
    rw [hnone] at hp
    cases hp

theorem governed_stake (h : g.Entered cfg r g1) (hstakes : g1.stakes = g.stakes) {target : H}
    {amount : Amount} (hset : r.body.setsStake r.origin = some (target,amount))
    (info : AccountInfo H) (epoch : Epoch) :
    (StakingManager.stake cfg r.origin info amount target epoch).wp anyHalt
      (fun _ g' => g.Governed cfg r g') g1 := by
  refine (StakingManager.frame_stake (f := GovernanceStore.roles)).imp fun _ g' h' => ?_
  obtain ⟨-,hroles,hothers,hown⟩ := h'
  refine ⟨h.of_roles hroles,fun c hc => (hothers c hc).trans (by rw [hstakes]),fun hnone => ?_,
    fun p hp => ?_⟩
  · cases hset.symm.trans hnone
  · cases hset.symm.trans hp
    exact hown

variable {setStake : SetStake} {gov : Governance H}

theorem governed_applySetStake (h : g.Entered cfg r g1) (hstakes : g1.stakes = g.stakes)
    (hset : r.body.setsStake r.origin = setStake.map (r.origin,·)) (gov : Governance H)
    (info : AccountInfo H) :
    (applySetStake cfg r gov setStake info).wp anyHalt (fun _ g' => g.Governed cfg r g') g1 := by
  cases setStake with
  | none => exact h.governed hstakes hset
  | some amount => exact governed_stake h hstakes hset ..

theorem standing_of_onlyCandidates (h : g.OnlyCandidates g') : g'.standing = g.standing := by
  rw [h]
  rfl

theorem leaves_updateCandidate (account : H) (epoch : Epoch) (nextStake : Option Amount) :
    (updateCandidate cfg account epoch nextStake).Leaves GovernanceStore.standing := by
  refine leaves_get fun g => ?_
  cases g.candidates.lookup account with
  | none => rfl
  | some c => exact (leaves_candidatePut standing_of_onlyCandidates ..).reads g

theorem GovernanceStore.Entered.of_standing (h : g.Entered cfg r g1)
    (hstakes : g1.stakes = g.stakes) (hsame : g'.standing = g1.standing) :
    g.Entered cfg r g' ∧ g'.stakes = g.stakes := by
  simp only [standing,Prod.mk.injEq] at hsame
  exact ⟨h.of_roles hsame.1,hsame.2.trans hstakes⟩

/-- The candidates are no part of what a request enters. -/
theorem GovernanceStore.Governed.of_standing (h : g.Governed cfg r g1)
    (hsame : g'.standing = g1.standing) : g.Governed cfg r g' := by
  simp only [standing,Prod.mk.injEq] at hsame
  refine ⟨h.of_roles hsame.1,?_,?_,?_⟩
  · rw [hsame.2]
    exact h.others
  · rw [hsame.2]
    exact h.unset
  · rw [hsame.2]
    exact h.own

theorem entered_same (h : ∀ own,r.body.repAfter (cfg.requestHash r) own = own) :
    g.Entered cfg r { g with requests := g.requests.insert (cfg.requestHash r) r } :=
  ⟨fun c => by rw [h,ite_self],fun h => Table.lookup_insert_ite ..,rfl,rfl⟩

theorem lookup_insert_rep {rep : RepInfo H}
    (h : r.body.repAfter (cfg.requestHash r) (g.reps.lookup r.origin) = some rep) (c : H) :
    (g.reps.insert r.origin rep).lookup c = if c = r.origin then
      r.body.repAfter (cfg.requestHash r) (g.reps.lookup c) else g.reps.lookup c := by
  rw [Table.lookup_insert_ite]
  by_cases hc : c = r.origin
  · rw [if_pos hc,if_pos hc,hc,h]
  · rw [if_neg hc,if_neg hc]

/-- The end of the four requests that change the record of their origin and may set its stake. -/
theorem governed_enter {rep : RepInfo H}
    (hsame : g1.standing = ((g.reps.insert r.origin rep,g.requests,g.epochs,g.epochTip),g.stakes))
    (hrep : r.body.repAfter (cfg.requestHash r) (g.reps.lookup r.origin) = some rep)
    {setStake : SetStake} (hset : r.body.setsStake r.origin = setStake.map (r.origin,·))
    (gov : Governance H) (info : AccountInfo H) :
    (do
      requestPut cfg r
      applySetStake cfg r gov setStake info : Gov H (AccountInfo H)).wp anyHalt
        (fun _ g' => g.Governed cfg r g') g1 := by
  simp only [GovernanceStore.standing,GovernanceStore.roles,Prod.mk.injEq] at hsame
  obtain ⟨⟨hreps,hrequests,hepochs,htip⟩,hstakes⟩ := hsame
  have hentered : g.Entered cfg r
      { g1 with requests := g1.requests.insert (cfg.requestHash r) r } := by
    refine ⟨fun c => ?_,fun h => ?_,hepochs,htip⟩
    · rw [hreps,lookup_insert_rep hrep]
    · rw [hrequests,Table.lookup_insert_ite]
  exact wp_bind.mpr (wp_modify.mpr (governed_applySetStake hentered hstakes hset gov info))

theorem governed_applyStartRepresenting {levy : BitVec 8}
    (hbody : r.body = .startRepresenting gov setStake levy) (info : AccountInfo H) :
    (applyStartRepresenting cfg r gov setStake levy info).wp anyHalt
      (fun _ g' => g.Governed cfg r g') g := by
  refine wp_bind.mpr (wp_modify.mpr (governed_enter rfl ?_ ?_ ..)) <;> rw [hbody] <;> rfl

theorem governed_applyStopRepresenting (hbody : r.body = .stopRepresenting gov setStake)
    (info : AccountInfo H) :
    (applyStopRepresenting cfg r gov setStake info).wp anyHalt
      (fun _ g' => g.Governed cfg r g') g := by
  refine wp_bind.mpr (wp_get.mpr (wp_bind.mpr (wp_need (fun _ => trivial) fun rep hrep => ?_)))
  refine wp_bind.mpr (wp_set.mpr (governed_enter rfl ?_ ?_ ..))
  · rw [hbody,hrep]
    rfl
  · rw [hbody]
    rfl

theorem governed_applyAnnounceCandidacy {levy : BitVec 8}
    (hbody : r.body = .announceCandidacy gov setStake levy) (info : AccountInfo H) :
    (applyAnnounceCandidacy cfg r gov setStake levy info).wp anyHalt
      (fun _ g' => g.Governed cfg r g') g := by
  refine wp_bind.mpr (wp_get.mpr (wp_bind.mpr (wp_need (fun _ => trivial) fun nextStake _ => ?_)))
  refine wp_bind.mpr (wp_set.mpr (wp_bind.mpr (wp_need (fun _ => trivial) fun may _ => ?_)))
  have hset : r.body.setsStake r.origin = setStake.map (r.origin,·) := by
    rw [hbody]
    rfl
  refine wp_ite (fun _ => wp_bind.mpr ?_) fun _ => governed_enter rfl (by rw [hbody]; rfl) hset ..
  -- the candidate is written between the record and the request
  refine ((leaves_candidatePut standing_of_onlyCandidates ..).reads _).imp fun _ g1 h1 => ?_
  exact governed_enter h1 (by rw [hbody]; rfl) hset ..

theorem governed_applyRenounceCandidacy (hbody : r.body = .renounceCandidacy gov setStake)
    (info : AccountInfo H) :
    (applyRenounceCandidacy cfg r gov setStake info).wp anyHalt
      (fun _ g' => g.Governed cfg r g') g := by
  refine wp_bind.mpr (wp_modify.mpr (wp_bind.mpr ?_))
  refine ((leaves_updateCandidate ..).reads _).imp fun _ g1 h1 => ?_
  have hsame : g1.standing = g.standing := by
    rw [h1]
    split <;> rfl
  simp only [GovernanceStore.standing,GovernanceStore.roles,Prod.mk.injEq] at hsame
  obtain ⟨⟨hreps,hrequests,hepochs,htip⟩,hstakes⟩ := hsame
  refine wp_bind.mpr (wp_get.mpr (wp_bind.mpr (wp_need (fun _ => trivial) fun rep hrep => ?_)))
  rw [hreps] at hrep
  rw [hreps,hrequests,hepochs,htip,hstakes]
  refine governed_enter rfl ?_ ?_ ..
  · rw [hbody,hrep]
    rfl
  · rw [hbody]
    rfl

theorem governed_applyStake {amount : Amount}
    (hset : r.body.setsStake r.origin = some (r.origin,amount))
    (hrep : ∀ own,r.body.repAfter (cfg.requestHash r) own = own) (info : AccountInfo H) :
    (applyStake cfg r gov amount info).wp anyHalt (fun _ g' => g.Governed cfg r g') g := by
  refine wp_bind.mpr (wp_modify.mpr (wp_bind.mpr ?_))
  refine (governed_stake (entered_same hrep) rfl hset ..).imp fun _ g1 h1 => ?_
  exact ((leaves_updateCandidate ..).reads g1).bind fun _ g2 h2 => h1.of_standing h2

theorem leaves_candidateAddVote (account : H) (weightedVote : Amount) (epoch : Epoch) :
    (candidateAddVote cfg account weightedVote epoch).Leaves GovernanceStore.standing :=
  ⟨fun _ => (onlyCandidates_candidateAddVote trivial ..).imp fun _ _ h =>
    standing_of_onlyCandidates h⟩

theorem leaves_getCurrentVotingPower (rep : H) (epoch : Epoch) :
    (VotingPowerManager.getCurrentVotingPower rep epoch).Leaves GovernanceStore.standing := by
  refine (leaves_getVotingPowerInfo ..).bind fun info => leaves_ite (leaves_get fun g => ?_)
    leaves_pure
  cases g.votingPowerFallback.lookup rep with
  | none => trivial
  | some f => rfl

theorem governed_applyElectionVote {votes : List (CandidateVotePair H)}
    (hbody : r.body = .electionVote gov votes) (info : AccountInfo H) :
    (applyElectionVote cfg r gov votes info).wp anyHalt (fun _ g' => g.Governed cfg r g') g := by
  refine wp_bind.mpr (wp_modify.mpr (wp_bind.mpr (wp_get.mpr (wp_bind.mpr ?_))))
  refine wp_need (fun _ => trivial) fun rep hrep => wp_bind.mpr (wp_set.mpr ?_)
  have hentered : g.Entered cfg r (g.voting cfg r rep) := by
    refine ⟨lookup_insert_rep ?_,fun h => Table.lookup_insert_ite ..,rfl,rfl⟩
    rw [hbody,hrep]
    rfl
  -- counting the votes and storing the rewards touches neither a role nor a stake
  refine ((Leaves.bind (leaves_getCurrentVotingPower ..) fun power => Leaves.bind (leaves_forM
    fun p => leaves_candidateAddVote ..) fun _ => Leaves.bind (leaves_getVotingPowerInfo ..)
    fun vpi => Leaves.bind (leaves_modify (by intro; rfl)) fun _ => leaves_pure).reads _).imp
    fun _ g' h' => ?_
  obtain ⟨h,hstakes⟩ := hentered.of_standing rfl h'
  exact h.governed hstakes (by rw [hbody]; rfl)

theorem governed_applyProxy {lockProxy : Amount} {rep : H}
    (hbody : r.body = .proxy gov lockProxy rep) (info : AccountInfo H) :
    (applyProxy cfg r gov lockProxy rep info).wp anyHalt (fun _ g' => g.Governed cfg r g') g := by
  refine governed_stake (entered_same ?_) rfl (by rw [hbody]; rfl) ..
  intro own
  rw [hbody]
  rfl

theorem governed_applyGovernance (h : r.body.governs = true) (info : AccountInfo H) :
    (applyGovernance cfg r info).wp anyHalt (fun _ g' => g.Governed cfg r g') g := by
  unfold applyGovernance
  cases hbody : r.body with
  | proxy gov lockProxy rep => exact governed_applyProxy hbody info
  | electionVote gov votes => exact governed_applyElectionVote hbody info
  | announceCandidacy gov setStake levy => exact governed_applyAnnounceCandidacy hbody info
  | renounceCandidacy gov setStake => exact governed_applyRenounceCandidacy hbody info
  | startRepresenting gov setStake levy => exact governed_applyStartRepresenting hbody info
  | stopRepresenting gov setStake => exact governed_applyStopRepresenting hbody info
  | stake gov amount =>
    exact governed_applyStake (by rw [hbody]; rfl) (by intro; rw [hbody]; rfl) info
  | unstake gov =>
    exact governed_applyStake (by rw [hbody]; rfl) (by intro; rw [hbody]; rfl) info
  | _ =>
    rw [hbody] at h
    cases h

/-- The request was already stored when its effect was made. -/
theorem GovernanceStore.Governed.of_stored (h : g1.Governed cfg r g')
    (hsame : g1.standing = ({ g with
      requests := g.requests.insert (cfg.requestHash r) r } : GovernanceStore H).standing) :
    g.Governed cfg r g' := by
  simp only [standing,roles,Prod.mk.injEq] at hsame
  obtain ⟨⟨hreps,hrequests,hepochs,htip⟩,hstakes⟩ := hsame
  obtain ⟨⟨hreps',hrequests',hepochs',htip'⟩,hothers,hunset,hown⟩ := h
  rw [hreps] at hreps'
  rw [hstakes] at hothers hunset
  refine ⟨⟨hreps',fun h => ?_,hepochs'.trans hepochs,htip'.trans htip⟩,hothers,hunset,hown⟩
  rw [hrequests',hrequests,Table.lookup_insert_ite]
  split <;> rfl

theorem governed_of_not_governs (h : r.body.governs = false) :
    g.Governed cfg r { g with requests := g.requests.insert (cfg.requestHash r) r } := by
  refine (entered_same fun own => ?_).governed rfl ?_
  · cases hbody : r.body <;> rw [hbody] at h <;> cases h <;> rfl
  · cases hbody : r.body <;> rw [hbody] at h <;> cases h <;> rfl

end Apply

namespace Store

variable {s s' : Store H} {i : Submission H} {deposits : List Amount}

theorem governed_applyBody {r : Request H} {timestamp : BitVec 64} {epoch : Epoch}
    {info info' : Account H}
    (h : s.applyBody cfg r timestamp epoch info = some (info',deposits,s')) :
    r.body.governs = true ∧ s.gov.Governed cfg r s'.gov ∨
      r.body.governs = false ∧ s'.gov.standing = s.gov.standing := by
  cases hkind : r.body.governs with
  | true =>
    obtain ⟨user,user',hgov⟩ := governance_of_applyBody hkind h
    exact .inl ⟨rfl,(governed_applyGovernance hkind user).run hgov⟩
  | false =>
    refine .inr ⟨rfl,apart_applyBody (fun user => ?_) h⟩
    unfold applyGovernance
    cases hbody : r.body <;> rw [hbody] at hkind <;> cases hkind <;> exact leaves_pure

/-- A request does nothing to roles and stakes, or is only stored, or was carried out. -/
theorem process_governed (h : s.process cfg i = some (s',deposits)) :
    s'.gov = s.gov ∨
    s'.gov = (s.storeRequest cfg i.request i.timestamp).gov ∨
    ∃ info,(s.validateBody cfg i.request info i.epoch).Accepts () ∧
      s.gov.Governed cfg i.request s'.gov := by
  rcases process_split h with ⟨-,rfl | rfl,-⟩ | ⟨info,info1,info2,s1,s2,-,-,-,-,hbody,hbegin,happly,
    rfl⟩
  · exact .inl rfl
  · exact .inr (.inl rfl)
  · have hbegun : s1.gov.standing = (s.storeRequest cfg i.request i.timestamp).gov.standing :=
      apart_beginRequest hbegin
    refine .inr (.inr ⟨info,hbody,?_⟩)
    rcases governed_applyBody happly with ⟨-,hgov⟩ | ⟨hkind,hsame⟩
    · exact hgov.of_stored hbegun
    · exact (governed_of_not_governs hkind).of_standing (hsame.trans hbegun)

end Store

end LogosCore.Ledger
