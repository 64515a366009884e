import LogosCore.RoleChanges

/-! # The stake of representatives, candidates and delegates

An account that represents others, or is or wants to be a delegate, has to keep a stake of its own.
Each request that changes a stake or a role checks its part of this. Here the checks are put
together over any sequence of requests. -/
namespace LogosCore.Ledger

open Option
open Check (accepts_attempt_bind accepts_found_bind accepts_require accepts_require_bind
  accepts_unit_bind)

variable {H : Type} [DecidableEq H] [Zero H] {cfg : Config H}

/-- The requests that give their origin a role. -/
def Body.promotes : Body H → Bool
  | .announceCandidacy _ _ _ => true
  | .startRepresenting _ _ _ => true
  | _ => false

/-- The requests that decide the roles of an account. -/
def RepInfo.tips (rep : RepInfo H) : H × H := (rep.repActionTip,rep.candidacyActionTip)

variable {amount : Amount} {setStake : SetStake} {levy : BitVec 8} {gov : Governance H}

namespace GovernanceStore

/-- The last request of an account that decides whether it represents others. -/
def repAction (g : GovernanceStore H) (account : H) : Option (Body H) :=
  (g.reps.lookup account).bind fun rep => g.requestBody rep.repActionTip

/-- The last request of an account that decides whether it is a candidate. -/
def candidacyAction (g : GovernanceStore H) (account : H) : Option (Body H) :=
  (g.reps.lookup account).bind fun rep =>
    if rep.candidacyActionTip = 0 then none else g.requestBody rep.candidacyActionTip

def isRepNextEpoch (g : GovernanceStore H) (account : H) : Bool :=
  (g.repAction account).any fun b => !b.isStopRepresenting

def isCandidateNextEpoch (g : GovernanceStore H) (account : H) : Bool :=
  (g.candidacyAction account).any Body.isAnnounceCandidacy

/-- The account has at least an amount staked with itself. -/
def SelfStaked (g : GovernanceStore H) (account : H) (amount : Amount) : Prop :=
  ∃ f,g.stakes.lookup account = some f ∧ f.target = account ∧ amount ≤ f.amount

/-- Accounts in a role have its stake, and none with another account. -/
structure StakeFloor (g : GovernanceStore H) : Prop where
  rep : ∀ a,g.isRepNextEpoch a = true → g.SelfStaked a minRepStake
  delegate : ∀ a,g.isCandidateNextEpoch a = true ∨ g.isDelegateNextEpoch a = some true →
    g.SelfStaked a minDelegateStake
  unlocked : ∀ a f,g.isRepNextEpoch a = true ∨ g.isCandidateNextEpoch a = true ∨
    g.isDelegateNextEpoch a = some true → g.stakes.lookup a = some f → f.target = a

/-- The requests that decide the roles of an account are stored. -/
structure TipsStored (g : GovernanceStore H) (a : H) : Prop where
  rep : ∀ rep,g.reps.lookup a = some rep → (g.requests.lookup rep.repActionTip).isSome
  candidacy : ∀ rep,g.reps.lookup a = some rep → rep.candidacyActionTip ≠ 0 →
    (g.requests.lookup rep.candidacyActionTip).isSome

/-- The floor for one account, and what its records need for it to be kept. -/
structure Stands (g : GovernanceStore H) (a : H) : Prop extends g.TipsStored a where
  represents : g.isCandidateNextEpoch a = true → g.isRepNextEpoch a = true
  repStake : g.isRepNextEpoch a = true → g.SelfStaked a minRepStake
  delegateStake : g.isCandidateNextEpoch a = true ∨ g.isDelegateNextEpoch a = some true →
    g.SelfStaked a minDelegateStake

theorem SelfStaked.target_eq {g : GovernanceStore H} {a : H} {f : StakedFunds H}
    (h : g.SelfStaked a amount) (hf : g.stakes.lookup a = some f) : f.target = a := by
  obtain ⟨f',hf',htarget,-⟩ := h
  cases hf.symm.trans hf'
  exact htarget

theorem stakeFloor_of_stands {g : GovernanceStore H} (h : ∀ a,g.Stands a) : g.StakeFloor where
  rep a := (h a).repStake
  delegate a := (h a).delegateStake
  unlocked a f := by
    rintro (hrole | hrole) hf
    · exact ((h a).repStake hrole).target_eq hf
    · exact ((h a).delegateStake hrole).target_eq hf

/-- What the checks leave open: the hash is not that of another request; who takes a role and sets
no stake has it with itself; a delegate keeps its stake; and who stopped representing is removed
before it announces a candidacy. -/
structure KeepsFloor (cfg : Config H) (g : GovernanceStore H) (r : Request H) : Prop where
  nonzero : cfg.requestHash r ≠ 0
  fresh : ∀ q,g.requests.lookup (cfg.requestHash r) = some q → q = r
  unlocked : r.body.promotes = true → r.body.setsStake r.origin = none →
    ∀ f,g.stakes.lookup r.origin = some f → f.target = r.origin
  delegate : g.isDelegateNextEpoch r.origin = some true → ∀ p ∈ r.body.setsStake r.origin,
    p.1 = r.origin ∧ minDelegateStake ≤ p.2
  stopped : r.body.isAnnounceCandidacy = true → ∀ b ∈ g.repAction r.origin,
    b.isStopRepresenting = false

section Step

variable {g g' : GovernanceStore H} {r : Request H} {a : H}

theorem TipsStored.congr (h : g.TipsStored a)
    (htips : (g'.reps.lookup a).map RepInfo.tips = (g.reps.lookup a).map RepInfo.tips)
    (hrequests : ∀ h,(g.requests.lookup h).isSome → g'.requests.lookup h = g.requests.lookup h) :
    g'.TipsStored a ∧ g'.repAction a = g.repAction a ∧
      g'.candidacyAction a = g.candidacyAction a := by
  unfold repAction candidacyAction requestBody
  cases hlookup : g.reps.lookup a with
  | none =>
    rw [hlookup,map_none,map_eq_none_iff] at htips
    rw [htips]
    refine ⟨⟨fun rep hrep => ?_,fun rep hrep => ?_⟩,rfl,rfl⟩ <;> cases htips.symm.trans hrep
  | some rep =>
    rw [hlookup,map_some,map_eq_some_iff] at htips
    obtain ⟨rep',hlookup',htips⟩ := htips
    simp only [RepInfo.tips,Prod.mk.injEq] at htips
    obtain ⟨hrep,hcandidacy⟩ := htips
    have hrep' := hrequests _ (h.rep rep hlookup)
    have hcandidacy' := fun hne => hrequests _ (h.candidacy rep hlookup hne)
    refine ⟨⟨fun q hq => ?_,fun q hq hne => ?_⟩,?_,?_⟩
    · cases hlookup'.symm.trans hq
      rw [hrep,hrep']
      exact h.rep rep hlookup
    · cases hlookup'.symm.trans hq
      rw [hcandidacy] at hne ⊢
      rw [hcandidacy' hne]
      exact h.candidacy rep hlookup hne
    · simp only [hlookup',bind_some]
      rw [hrep,hrep']
    · simp only [hlookup',bind_some]
      rw [hcandidacy]
      by_cases hzero : rep.candidacyActionTip = 0
      · rw [if_pos hzero,if_pos hzero]
      · rw [if_neg hzero,if_neg hzero,hcandidacy' hzero]

theorem Stands.congr (h : g.Stands a) (hreps : g'.reps.lookup a = g.reps.lookup a)
    (hstakes : g'.stakes.lookup a = g.stakes.lookup a)
    (hrequests : ∀ h,(g.requests.lookup h).isSome → g'.requests.lookup h = g.requests.lookup h)
    (hdelegate : g'.isDelegateNextEpoch a = g.isDelegateNextEpoch a) : g'.Stands a := by
  obtain ⟨hstored,hrep,hcandidacy⟩ := h.toTipsStored.congr (by rw [hreps]) hrequests
  refine ⟨hstored,?_,?_,?_⟩
  · simpa only [isCandidateNextEpoch,isRepNextEpoch,hrep,hcandidacy] using h.represents
  · simpa only [isRepNextEpoch,hrep,SelfStaked,hstakes] using h.repStake
  · simpa only [isCandidateNextEpoch,hcandidacy,SelfStaked,hstakes,hdelegate] using
      h.delegateStake

theorem isDelegateNextEpoch_congr (hepochs : g'.epochs = g.epochs)
    (htip : g'.epochTip = g.epochTip) (a : H) :
    g'.isDelegateNextEpoch a = g.isDelegateNextEpoch a := by
  simp only [isDelegateNextEpoch,epochGetN,epochBack,epochGet,hepochs,htip]

variable (k : KeepsFloor cfg g r) (hgov : g.Governed cfg r g')

include k in
/-- A request that is stored does not replace another. -/
theorem KeepsFloor.lookup_insert (h : H) (hsome : (g.requests.lookup h).isSome) :
    (if h = cfg.requestHash r then some r else g.requests.lookup h) = g.requests.lookup h := by
  split
  · next heq =>
    obtain ⟨q,hq⟩ := isSome_iff_exists.mp hsome
    rw [hq,k.fresh q (heq ▸ hq)]
  · rfl

include hgov

theorem Governed.requestBody_self : g'.requestBody (cfg.requestHash r) = some r.body := by
  simp only [requestBody,hgov.requests,if_pos,map_some]

/-- The account has the stake it needs: the request sets it, or it had it already. -/
theorem Governed.selfStaked (hpos : amount ≠ 0)
    (hset : ∀ p ∈ r.body.setsStake r.origin,p.1 = r.origin ∧ amount ≤ p.2)
    (hunset : r.body.setsStake r.origin = none → g.SelfStaked r.origin amount) :
    g'.SelfStaked r.origin amount := by
  cases hp : r.body.setsStake r.origin with
  | none =>
    obtain ⟨f,hf,hstaked⟩ := hunset hp
    exact ⟨f,(hgov.unset hp).trans hf,hstaked⟩
  | some p =>
    obtain ⟨htarget,hle⟩ := hset p hp
    obtain ⟨hash,hown⟩ := hgov.own p hp (by bv_omega)
    exact ⟨_,hown,htarget,hle⟩

theorem Governed.stands (hstored : g'.TipsStored r.origin)
    (hrepresents : g'.isCandidateNextEpoch r.origin = true → g'.isRepNextEpoch r.origin = true)
    (hrep : g'.isRepNextEpoch r.origin = true →
      (∀ p ∈ r.body.setsStake r.origin,p.1 = r.origin ∧ minRepStake ≤ p.2) ∧
      (r.body.setsStake r.origin = none → g.SelfStaked r.origin minRepStake))
    (hdelegate : g'.isCandidateNextEpoch r.origin = true ∨
        g.isDelegateNextEpoch r.origin = some true →
      (∀ p ∈ r.body.setsStake r.origin,p.1 = r.origin ∧ minDelegateStake ≤ p.2) ∧
      (r.body.setsStake r.origin = none → g.SelfStaked r.origin minDelegateStake)) :
    g'.Stands r.origin := by
  refine ⟨hstored,hrepresents,fun h => ?_,fun h => ?_⟩
  · exact hgov.selfStaked (by decide) (hrep h).1 (hrep h).2
  · rw [isDelegateNextEpoch_congr hgov.epochs hgov.epochTip] at h
    exact hgov.selfStaked (by decide) (hdelegate h).1 (hdelegate h).2

include k

/-- A request that changes neither of the two tips changes no role; it may set the stake. -/
theorem Governed.stands_of_tips (h : g.Stands r.origin) (htips : ∀ own : Option (RepInfo H),
      (r.body.repAfter (cfg.requestHash r) own).map RepInfo.tips = own.map RepInfo.tips)
    (hrep : g.isRepNextEpoch r.origin = true →
      ∀ p ∈ r.body.setsStake r.origin,p.1 = r.origin ∧ minRepStake ≤ p.2)
    (hcandidate : g.isCandidateNextEpoch r.origin = true →
      ∀ p ∈ r.body.setsStake r.origin,p.1 = r.origin ∧ minDelegateStake ≤ p.2) :
    g'.Stands r.origin := by
  obtain ⟨hstored,haction,hcandidacy⟩ : g'.TipsStored r.origin ∧
      g'.repAction r.origin = g.repAction r.origin ∧
      g'.candidacyAction r.origin = g.candidacyAction r.origin := by
    refine h.toTipsStored.congr ?_ fun t ht => ?_
    · rw [hgov.reps,if_pos rfl,htips]
    · rw [hgov.requests,k.lookup_insert t ht]
  have hrepSame : g'.isRepNextEpoch r.origin = g.isRepNextEpoch r.origin := by
    simp only [isRepNextEpoch,haction]
  have hcandidateSame : g'.isCandidateNextEpoch r.origin = g.isCandidateNextEpoch r.origin := by
    simp only [isCandidateNextEpoch,hcandidacy]
  refine hgov.stands hstored ?_ ?_ ?_
  · rw [hrepSame,hcandidateSame]
    exact h.represents
  · rw [hrepSame]
    exact fun hrole => ⟨hrep hrole,fun _ => h.repStake hrole⟩
  · rw [hcandidateSame]
    refine fun hrole => ⟨?_,fun _ => h.delegateStake hrole⟩
    rcases hrole with hrole | hrole
    · exact hcandidate hrole
    · exact k.delegate hrole

omit hgov in
/-- What the check of the stake gives where the account begins or goes on to represent others. -/
theorem KeepsFloor.governanceStake {announces : Bool}
    (hset : r.body.setsStake r.origin = setStake.map (r.origin,·))
    (hmin : g.hasMinGovernanceStake r.origin setStake announces = true)
    (hamount : ∀ x,minRepStake ≤ x → (announces = true → minDelegateStake ≤ x) → amount ≤ x) :
    (∀ p ∈ r.body.setsStake r.origin,p.1 = r.origin ∧ amount ≤ p.2) ∧
    (r.body.setsStake r.origin = none → r.body.promotes = true → g.SelfStaked r.origin amount) := by
  rw [hset]
  unfold hasMinGovernanceStake at hmin
  cases setStake with
  | some x =>
    simp only [some_or,Bool.and_eq_true,Bool.or_eq_true,decide_eq_true_eq,Bool.not_eq_true'] at hmin
    refine ⟨fun p hp => ?_,fun hnone => by cases hnone⟩
    cases hp
    refine ⟨rfl,hamount x hmin.1 fun hannounces => ?_⟩
    exact hmin.2.resolve_left (by rw [hannounces]; decide)
  | none =>
    refine ⟨fun p hp => (by cases hp),fun _ hpromotes => ?_⟩
    rw [none_or] at hmin
    cases hf : g.stakes.lookup r.origin with
    | none =>
      rw [hf] at hmin
      cases hmin
    | some f =>
      simp only [hf,map_some,Bool.and_eq_true,Bool.or_eq_true,decide_eq_true_eq,
        Bool.not_eq_true'] at hmin
      refine ⟨f,hf,k.unlocked hpromotes hset f hf,hamount _ hmin.1 fun hannounces => ?_⟩
      exact hmin.2.resolve_left (by rw [hannounces]; decide)

omit k in
theorem Governed.tipsStored {rep : RepInfo H}
    (hafter : r.body.repAfter (cfg.requestHash r) (g.reps.lookup r.origin) = some rep)
    (hrep : rep.repActionTip = cfg.requestHash r ∨ (g.requests.lookup rep.repActionTip).isSome)
    (hcandidacy : rep.candidacyActionTip ≠ 0 → rep.candidacyActionTip = cfg.requestHash r ∨
      (g.requests.lookup rep.candidacyActionTip).isSome) : g'.TipsStored r.origin := by
  have hlookup : g'.reps.lookup r.origin = some rep := by rw [hgov.reps,if_pos rfl,hafter]
  have hstored : ∀ t,t = cfg.requestHash r ∨ (g.requests.lookup t).isSome →
      (g'.requests.lookup t).isSome := by
    intro t ht
    rw [hgov.requests]
    split
    · rfl
    · next hne => exact ht.resolve_left hne
  constructor
  · intro q hq
    cases hlookup.symm.trans hq
    exact hstored _ hrep
  · intro q hq hne
    cases hlookup.symm.trans hq
    exact hstored _ (hcandidacy hne)

theorem Governed.stands_startRepresenting (hbody : r.body = .startRepresenting gov setStake levy)
    (h : g.Stands r.origin) (hmin : g.hasMinGovernanceStake r.origin setStake false = true) :
    g'.Stands r.origin := by
  have hset : r.body.setsStake r.origin = setStake.map (r.origin,·) := by rw [hbody]; rfl
  have hafter : r.body.repAfter (cfg.requestHash r) (g.reps.lookup r.origin) =
      some ⟨0,0,cfg.requestHash r,levy⟩ := by rw [hbody]; rfl
  have hlookup := hgov.reps r.origin
  rw [if_pos rfl,hafter] at hlookup
  have hcandidate : g'.isCandidateNextEpoch r.origin = false := by
    simp [isCandidateNextEpoch,candidacyAction,hlookup]
  refine hgov.stands (hgov.tipsStored hafter (.inl rfl) fun hne => absurd rfl hne) ?_ ?_ ?_
  · rw [hcandidate]
    exact fun hfalse => by cases hfalse
  · intro _
    obtain ⟨hsome,hnone⟩ := k.governanceStake hset hmin fun _ hle _ => hle
    exact ⟨hsome,fun hunset => hnone hunset (by rw [hbody]; rfl)⟩
  · rw [hcandidate]
    rintro (hfalse | hdelegate)
    · cases hfalse
    · exact ⟨k.delegate hdelegate,fun _ => h.delegateStake (.inr hdelegate)⟩

theorem Governed.stands_announceCandidacy (hbody : r.body = .announceCandidacy gov setStake levy)
    (h : g.Stands r.origin) (hmin : g.hasMinGovernanceStake r.origin setStake true = true) :
    g'.Stands r.origin := by
  have hset : r.body.setsStake r.origin = setStake.map (r.origin,·) := by rw [hbody]; rfl
  have hpromotes : r.body.promotes = true := by rw [hbody]; rfl
  have hrepStake := k.governanceStake hset hmin fun _ hle _ => hle
  have hdelegateStake := k.governanceStake hset hmin fun _ _ hle => hle rfl
  -- the account represents others: it did before, or this request is its first
  obtain ⟨hstored,hrep⟩ : g'.TipsStored r.origin ∧ g'.isRepNextEpoch r.origin = true := by
    cases hlookup : g.reps.lookup r.origin with
    | none =>
      have hafter : r.body.repAfter (cfg.requestHash r) (g.reps.lookup r.origin) =
          some ⟨cfg.requestHash r,0,cfg.requestHash r,levy⟩ := by rw [hbody,hlookup]; rfl
      have hlookup' := hgov.reps r.origin
      rw [if_pos rfl,hafter] at hlookup'
      refine ⟨hgov.tipsStored hafter (.inl rfl) fun _ => .inl rfl,?_⟩
      simp [isRepNextEpoch,repAction,hlookup',hgov.requestBody_self,hbody,Body.isStopRepresenting]
    | some rep =>
      have hafter : r.body.repAfter (cfg.requestHash r) (g.reps.lookup r.origin) =
          some { rep with candidacyActionTip := cfg.requestHash r } := by rw [hbody,hlookup]; rfl
      have hlookup' := hgov.reps r.origin
      rw [if_pos rfl,hafter] at hlookup'
      have hsome := h.rep rep hlookup
      refine ⟨hgov.tipsStored hafter (.inr hsome) fun _ => .inl rfl,?_⟩
      obtain ⟨q,hq⟩ := isSome_iff_exists.mp hsome
      have haction : g'.requests.lookup rep.repActionTip = some q := by
        rw [hgov.requests,k.lookup_insert _ hsome,hq]
      have hstop := k.stopped (by rw [hbody]; rfl) q.body (by
        simp [repAction,requestBody,hlookup,hq])
      simp [isRepNextEpoch,repAction,hlookup',requestBody,haction,hstop]
  refine hgov.stands hstored (fun _ => hrep) (fun _ => ?_) fun _ => ?_
  · exact ⟨hrepStake.1,fun hunset => hrepStake.2 hunset hpromotes⟩
  · exact ⟨hdelegateStake.1,fun hunset => hdelegateStake.2 hunset hpromotes⟩

theorem Governed.stands_renounceCandidacy (hbody : r.body = .renounceCandidacy gov setStake)
    (h : g.Stands r.origin) {rep : RepInfo H} (hlookup : g.reps.lookup r.origin = some rep)
    (hmin : g.hasMinGovernanceStake r.origin setStake false = true) : g'.Stands r.origin := by
  have hset : r.body.setsStake r.origin = setStake.map (r.origin,·) := by rw [hbody]; rfl
  have hafter : r.body.repAfter (cfg.requestHash r) (g.reps.lookup r.origin) =
      some { rep with candidacyActionTip := cfg.requestHash r } := by rw [hbody,hlookup]; rfl
  have hlookup' := hgov.reps r.origin
  rw [if_pos rfl,hafter] at hlookup'
  have hsome := h.rep rep hlookup
  have haction : g'.requests.lookup rep.repActionTip = g.requests.lookup rep.repActionTip := by
    rw [hgov.requests,k.lookup_insert _ hsome]
  have hrep : g'.isRepNextEpoch r.origin = g.isRepNextEpoch r.origin := by
    simp [isRepNextEpoch,repAction,hlookup',hlookup,requestBody,haction]
  have hcandidate : g'.isCandidateNextEpoch r.origin = false := by
    simp [isCandidateNextEpoch,candidacyAction,hlookup',k.nonzero,hgov.requestBody_self,hbody,
      Body.isAnnounceCandidacy]
  refine hgov.stands (hgov.tipsStored hafter (.inr hsome) fun _ => .inl rfl) ?_ ?_ ?_
  · rw [hcandidate]
    exact fun hfalse => by cases hfalse
  · rw [hrep]
    obtain ⟨hstake,-⟩ := k.governanceStake hset hmin fun _ hle _ => hle
    exact fun hrole => ⟨hstake,fun _ => h.repStake hrole⟩
  · rw [hcandidate]
    rintro (hfalse | hdelegate)
    · cases hfalse
    · exact ⟨k.delegate hdelegate,fun _ => h.delegateStake (.inr hdelegate)⟩

theorem Governed.stands_stopRepresenting (hbody : r.body = .stopRepresenting gov setStake)
    (h : g.Stands r.origin) {rep : RepInfo H} (hlookup : g.reps.lookup r.origin = some rep)
    (hcandidate : g.isCandidateNextEpoch r.origin = false)
    (hdelegate : g.isDelegateNextEpoch r.origin = some false) : g'.Stands r.origin := by
  have hafter : r.body.repAfter (cfg.requestHash r) (g.reps.lookup r.origin) =
      some { rep with repActionTip := cfg.requestHash r } := by rw [hbody,hlookup]; rfl
  have hlookup' := hgov.reps r.origin
  rw [if_pos rfl,hafter] at hlookup'
  have hrep : g'.isRepNextEpoch r.origin = false := by
    simp [isRepNextEpoch,repAction,hlookup',hgov.requestBody_self,hbody,Body.isStopRepresenting]
  have hcandidate' : g'.isCandidateNextEpoch r.origin = false := by
    rw [← hcandidate]
    by_cases hzero : rep.candidacyActionTip = 0
    · simp [isCandidateNextEpoch,candidacyAction,hlookup',hlookup,hzero]
    · have haction : g'.requests.lookup rep.candidacyActionTip =
          g.requests.lookup rep.candidacyActionTip := by
        rw [hgov.requests,k.lookup_insert _ (h.candidacy rep hlookup hzero)]
      simp [isCandidateNextEpoch,candidacyAction,hlookup',hlookup,requestBody,haction,hzero]
  refine hgov.stands (hgov.tipsStored hafter (.inl rfl) fun hne =>
    .inr (h.candidacy rep hlookup hne)) ?_ ?_ ?_
  · rw [hcandidate']
    exact fun hfalse => by cases hfalse
  · rw [hrep]
    exact fun hfalse => by cases hfalse
  · rw [hcandidate',hdelegate]
    rintro (hfalse | hfalse) <;> cases hfalse

end Step

end GovernanceStore

/-! ## Requests keep it -/

namespace Store

open GovernanceStore

variable {s s' : Store H} {i : Submission H} {r : Request H} {info : Account H} {epoch : Epoch}

section Checks

/-- The check of a governance request finds a user account. -/
theorem accepts_governance (hkind : r.body.governs = true)
    (h : (s.validateBody cfg r info epoch).Accepts ()) :
    ∃ user,(validateGovernance cfg s.gov r info epoch).Accepts () ∧ info.asUser = some user := by
  have hvalid : (validateGovernance cfg s.gov r info epoch).Accepts () := by
    unfold validateBody at h
    cases hbody : r.body <;> rw [hbody] at hkind h <;> first | exact h | cases hkind
  obtain ⟨user,huser,-⟩ := accepts_found_bind.mp hvalid
  exact ⟨user,hvalid,huser⟩

variable (h : (validateGovernance cfg s.gov r info epoch).Accepts ())

include h

theorem min_of_startRepresenting (hbody : r.body = .startRepresenting gov setStake levy) :
    s.gov.hasMinGovernanceStake r.origin setStake false = true := by
  simp only [validateGovernance,hbody,validateStartRepresenting,accepts_found_bind,
    accepts_unit_bind] at h
  obtain ⟨user,-,-,h⟩ := h
  split at h
  · exact (accepts_require_bind.mp h).1
  · simp only [accepts_require_bind,accepts_attempt_bind] at h
    obtain ⟨action,-,-,actionEpoch,-,-,hmin,-⟩ := h
    exact hmin

theorem min_of_announceCandidacy (hbody : r.body = .announceCandidacy gov setStake levy) :
    s.gov.hasMinGovernanceStake r.origin setStake true = true := by
  simp only [validateGovernance,hbody,validateAnnounceCandidacy,accepts_found_bind,
    accepts_require_bind,accepts_attempt_bind] at h
  obtain ⟨user,-,-,dead,-,-,-,-,h⟩ := h
  split at h
  · exact (accepts_require_bind.mp h).1
  · simp only [accepts_require_bind,accepts_attempt_bind] at h
    obtain ⟨action,-,actionEpoch,-,-,h⟩ := h
    split at h
    · exact (accepts_require_bind.mp h).1
    · simp only [accepts_require_bind,accepts_attempt_bind] at h
      obtain ⟨candidacy,-,-,candidacyEpoch,-,-,hmin,-⟩ := h
      exact hmin

theorem min_of_renounceCandidacy (hbody : r.body = .renounceCandidacy gov setStake) :
    (∃ rep,s.gov.reps.lookup r.origin = some rep) ∧
      s.gov.hasMinGovernanceStake r.origin setStake false = true := by
  simp only [validateGovernance,hbody,validateRenounceCandidacy,accepts_found_bind,
    accepts_unit_bind,accepts_require,accepts_attempt_bind] at h
  obtain ⟨user,-,-,rep,hrep,-,action,-,-,actionEpoch,-,-,hmin,-⟩ := h
  exact ⟨⟨rep,hrep⟩,hmin⟩

theorem unbound_of_stopRepresenting (hbody : r.body = .stopRepresenting gov setStake) :
    (∃ rep,s.gov.reps.lookup r.origin = some rep) ∧ s.gov.isCandidateNextEpoch r.origin = false ∧
      s.gov.isDelegateNextEpoch r.origin = some false := by
  simp only [validateGovernance,hbody,validateStopRepresenting,accepts_found_bind,
    accepts_unit_bind,accepts_require,accepts_attempt_bind] at h
  obtain ⟨user,-,-,rep,hrep,action,-,actionEpoch,-,-,-,h⟩ := h
  refine ⟨⟨rep,hrep⟩,?_⟩
  by_cases hzero : rep.candidacyActionTip = 0
  · simp only [if_pos hzero,accepts_attempt_bind,accepts_unit_bind,accepts_require] at h
    obtain ⟨delegate,hdelegate,hnot,-⟩ := h
    refine ⟨by simp [isCandidateNextEpoch,candidacyAction,hrep,hzero],?_⟩
    rw [hdelegate]
    simpa using hnot
  · simp only [if_neg hzero,accepts_attempt_bind,accepts_unit_bind,accepts_require] at h
    obtain ⟨action',haction',-,-,-,hannounce,delegate,hdelegate,hnot,-⟩ := h
    unfold verifiedTip at haction'
    rw [if_neg hzero,filter_eq_some_iff] at haction'
    simp only [isCandidateNextEpoch,candidacyAction,hrep,bind_some,if_neg hzero,
      haction'.1,any_some,hdelegate]
    exact ⟨by simpa using hannounce,by simpa using hnot⟩

theorem stopped_of_proxy {lockProxy : Amount} {rep : H}
    (hbody : r.body = .proxy gov lockProxy rep) : s.gov.isRepNextEpoch r.origin = false := by
  simp only [validateGovernance,hbody,validateProxy,accepts_found_bind,
    accepts_unit_bind,accepts_require] at h
  obtain ⟨user,-,-,-,h⟩ := h
  unfold isRepNextEpoch repAction
  cases hrep : s.gov.reps.lookup r.origin with
  | none => rfl
  | some own =>
    simp only [hrep,accepts_attempt_bind,accepts_require_bind] at h
    obtain ⟨action,haction,hstop,-⟩ := h
    simp [haction,hstop]

theorem stopped_of_unstake (hbody : r.body = .unstake gov) :
    s.gov.isRepNextEpoch r.origin = false := by
  simp only [validateGovernance,hbody,validateUnstake,accepts_found_bind,
    accepts_unit_bind,accepts_require] at h
  obtain ⟨user,-,-,-,hown⟩ := h
  unfold isRepNextEpoch repAction
  cases hrep : s.gov.reps.lookup r.origin with
  | none => rfl
  | some own =>
    simp only [hrep,accepts_attempt_bind,accepts_require] at hown
    obtain ⟨action,haction,hstop⟩ := hown
    simp [haction,hstop]

theorem min_of_stake (hbody : r.body = .stake gov amount) :
    (s.gov.isRepNextEpoch r.origin = true → minRepStake ≤ amount) ∧
      (s.gov.isCandidateNextEpoch r.origin = true → minDelegateStake ≤ amount) := by
  simp only [validateGovernance,hbody,validateStake,accepts_found_bind,
    accepts_unit_bind,accepts_require] at h
  obtain ⟨user,-,-,-,h⟩ := h
  unfold isRepNextEpoch repAction isCandidateNextEpoch candidacyAction
  cases hrep : s.gov.reps.lookup r.origin with
  | none => exact ⟨fun hfalse => (by cases hfalse),fun hfalse => (by cases hfalse)⟩
  | some own =>
    simp only [hrep,accepts_attempt_bind,accepts_require_bind] at h
    obtain ⟨action,haction,hmin,h⟩ := h
    simp only [bind_some,haction,any_some]
    refine ⟨fun hrole => hmin.resolve_left (by simpa using hrole),?_⟩
    by_cases hzero : own.candidacyActionTip = 0
    · rw [if_pos hzero]
      exact fun hfalse => by cases hfalse
    · simp only [if_neg hzero,accepts_attempt_bind,accepts_require_bind] at h ⊢
      obtain ⟨action',haction',hannounce,-⟩ := h
      rw [haction']
      exact hannounce

end Checks

theorem stands_origin {g' : GovernanceStore H} (hkind : r.body.governs = true)
    (hvalid : (s.validateBody cfg r info epoch).Accepts ()) (k : s.gov.KeepsFloor cfg r)
    (hgov : s.gov.Governed cfg r g') (h : s.gov.Stands r.origin) : g'.Stands r.origin := by
  obtain ⟨user,hvalid,-⟩ := accepts_governance hkind hvalid
  have hkeep : ∀ body : Body H,r.body = body →
      (∀ own : Option (RepInfo H),(body.repAfter (cfg.requestHash r) own).map RepInfo.tips =
        own.map RepInfo.tips) →
      ∀ own : Option (RepInfo H),(r.body.repAfter (cfg.requestHash r) own).map RepInfo.tips =
        own.map RepInfo.tips := by
    rintro _ rfl hkept
    exact hkept
  -- an account that does not represent others is no candidate
  have hnone : s.gov.isRepNextEpoch r.origin = false →
      s.gov.isCandidateNextEpoch r.origin = true → False := by
    intro hrep hcandidate
    cases (h.represents hcandidate).symm.trans hrep
  cases hbody : r.body with
  | startRepresenting gov setStake levy =>
    exact hgov.stands_startRepresenting k hbody h (min_of_startRepresenting hvalid hbody)
  | announceCandidacy gov setStake levy =>
    exact hgov.stands_announceCandidacy k hbody h (min_of_announceCandidacy hvalid hbody)
  | renounceCandidacy gov setStake =>
    obtain ⟨⟨rep,hrep⟩,hmin⟩ := min_of_renounceCandidacy hvalid hbody
    exact hgov.stands_renounceCandidacy k hbody h hrep hmin
  | stopRepresenting gov setStake =>
    obtain ⟨⟨rep,hrep⟩,hcandidate,hdelegate⟩ := unbound_of_stopRepresenting hvalid hbody
    exact hgov.stands_stopRepresenting k hbody h hrep hcandidate hdelegate
  | proxy gov lockProxy rep =>
    have hrep := stopped_of_proxy hvalid hbody
    refine hgov.stands_of_tips k h (hkeep _ hbody fun _ => rfl) (fun hrole => ?_) fun hrole => ?_
    · cases hrep.symm.trans hrole
    · cases hnone hrep hrole
  | unstake gov =>
    have hrep := stopped_of_unstake hvalid hbody
    refine hgov.stands_of_tips k h (hkeep _ hbody fun _ => rfl) (fun hrole => ?_) fun hrole => ?_
    · cases hrep.symm.trans hrole
    · cases hnone hrep hrole
  | stake gov amount =>
    obtain ⟨hrep,hcandidate⟩ := min_of_stake hvalid hbody
    refine hgov.stands_of_tips k h (hkeep _ hbody fun _ => rfl) (fun hrole p hp => ?_)
      fun hrole p hp => ?_ <;> rw [hbody] at hp <;> cases hp
    · exact ⟨rfl,hrep hrole⟩
    · exact ⟨rfl,hcandidate hrole⟩
  | electionVote gov votes =>
    refine hgov.stands_of_tips k h (hkeep _ hbody fun own => ?_) (fun _ p hp => ?_) fun _ p hp => ?_
    · cases own <;> rfl
    · rw [hbody] at hp
      cases hp
    · rw [hbody] at hp
      cases hp
  | _ =>
    rw [hbody] at hkind
    cases hkind

/-- One request keeps the floor of every account. -/
theorem process_stands {deposits : List Amount} (hs : ∀ a,s.gov.Stands a)
    (k : s.gov.KeepsFloor cfg i.request) (h : s.process cfg i = some (s',deposits)) (a : H) :
    s'.gov.Stands a := by
  rcases process_governed h with hsame | hstored | ⟨info,hvalid,hgov⟩
  · rw [hsame]
    exact hs a
  · rw [hstored]
    refine (hs a).congr rfl rfl (fun t ht => ?_) (isDelegateNextEpoch_congr rfl rfl a)
    refine Eq.trans ?_ (k.lookup_insert t ht)
    exact Table.lookup_insert_ite ..
  · have hother : (a = i.request.origin → s'.gov.reps.lookup a = s.gov.reps.lookup a ∧
        s'.gov.stakes.lookup a = s.gov.stakes.lookup a) → s'.gov.Stands a := by
      intro hown
      have hrest : s'.gov.reps.lookup a = s.gov.reps.lookup a ∧
          s'.gov.stakes.lookup a = s.gov.stakes.lookup a := by
        by_cases ha : a = i.request.origin
        · exact hown ha
        · exact ⟨by rw [hgov.reps,if_neg ha],hgov.others a ha⟩
      refine (hs a).congr hrest.1 hrest.2 (fun t ht => ?_)
        (isDelegateNextEpoch_congr hgov.epochs hgov.epochTip a)
      rw [hgov.requests,k.lookup_insert t ht]
    cases hkind : i.request.body.governs with
    | true =>
      by_cases ha : a = i.request.origin
      · rw [ha]
        exact stands_origin hkind hvalid k hgov (hs _)
      · exact hother fun heq => absurd heq ha
    | false =>
      refine hother fun ha => ?_
      rw [ha,hgov.reps,if_pos rfl]
      refine ⟨?_,hgov.unset ?_⟩ <;>
        cases hbody : i.request.body <;> rw [hbody] at hkind <;> cases hkind <;> rfl

/-- In a run whose requests keep the floor, every account in a role has its stake with itself. -/
theorem exec_stakeFloor {is : List (Submission H)} {deposits : List Amount}
    (hs : ∀ a,s.gov.Stands a)
    (hkeeps : Machine.Along (process cfg) (fun s i => s.gov.KeepsFloor cfg i.request) s is)
    (hrun : Machine.exec (process cfg) s is = some (s',deposits)) : s'.gov.StakeFloor := by
  have hall : ∀ a,s'.gov.Stands a := by
    refine Machine.exec_preserves (I := fun _ s => ∀ a,s.gov.Stands a)
      (fun _ s i s' o hs k h => process_stands hs k h) hs hkeeps hrun
  exact stakeFloor_of_stands hall

section Sample

theorem stands_of_none {g : GovernanceStore H} {a : H} (hreps : g.reps.lookup a = none)
    (hdelegate : g.isDelegateNextEpoch a = some false) : g.Stands a := by
  refine ⟨⟨fun rep hrep => ?_,fun rep hrep => ?_⟩,?_,?_,?_⟩
  · cases hreps.symm.trans hrep
  · cases hreps.symm.trans hrep
  · simp [isCandidateNextEpoch,candidacyAction,hreps]
  · simp [isRepNextEpoch,repAction,hreps]
  · simp [isCandidateNextEpoch,candidacyAction,hreps,hdelegate]

def floorSample : Store ℕ :=
  let funded : Account ℕ :=
    .user { AccountInfo.default with balance := 2 ^ 120,availableBalance := 2 ^ 120 }
  { (Store.empty.accountPut 1 funded).accountPut 2 funded with
    gov := { GovernanceStore.empty with
      epochs := AList.insert 5 ⟨9,0,0,[],false,0,0⟩ ∅
      epochTip := some (5,9) } }

def floorRequest (origin previous : ℕ) (sequence : BitVec 32) (body : Body ℕ) : Submission ℕ where
  request := ⟨origin,previous,0x21e19e0c9bab2400000,sequence,0,7,body⟩
  epoch := 10
  timestamp := 9
  canAcquire _ _ := true
  allowDuplicates := true

theorem floorSample_stands (a : ℕ) : floorSample.gov.Stands a :=
  stands_of_none rfl rfl

def startRequest : Submission ℕ :=
  floorRequest 2 0 0 (.startRepresenting ⟨10,0⟩ (some minRepStake) 0)

theorem exec_stakeFloor_sample :
    ∃ s' deposits,Machine.exec (process Config.sample) floorSample [startRequest] =
      some (s',deposits) ∧ s'.gov.isRepNextEpoch 2 = true ∧ s'.gov.StakeFloor := by
  have hrun : (Machine.exec (process Config.sample) floorSample [startRequest]).map
      (fun r => r.1.gov.isRepNextEpoch 2) = some true := by decide +kernel
  obtain ⟨r,hr,hrep⟩ := map_eq_some_iff.mp hrun
  have hkeeps : floorSample.gov.KeepsFloor Config.sample startRequest.request := by
    refine ⟨by decide,fun q hq => ?_,fun _ hset => ?_,fun hdelegate => ?_,fun hannounce => ?_⟩
    · cases hq
    · cases hset
    · cases hdelegate
    · cases hannounce
  have hall : Machine.Along (process Config.sample)
      (fun s i => s.gov.KeepsFloor Config.sample i.request) floorSample [startRequest] :=
    ⟨hkeeps,fun _ _ _ => trivial⟩
  exact ⟨r.1,r.2,hr,hrep,exec_stakeFloor floorSample_stands hall hr⟩

/-- Account 1 locks its stake with account 2, and then represents others itself. -/
def proxyRequest : Submission ℕ := floorRequest 1 0 0 (.proxy ⟨10,0⟩ minRepStake 2)

def startProxied : Submission ℕ :=
  floorRequest 1 1026 1 (.startRepresenting ⟨10,1026⟩ none 0)

def delegateSample : Store ℕ :=
  let stakeHash := StakingManager.fundsHash Config.sample 1 1 0
  { floorSample with
    gov := { floorSample.gov with
      epochs := AList.insert 5 ⟨9,0,0,[⟨1,0,0,0,0,0,false⟩],false,0,0⟩ ∅
      requests := AList.insert 7 ⟨1,0,0,0,0,7,.startRepresenting ⟨5,0⟩ none 0⟩ ∅
      reps := AList.insert 1 ⟨0,0,7,0⟩ ∅
      stakes := AList.insert 1 ⟨1,minDelegateStake,stakeHash⟩ ∅
      masterLiabilities := AList.insert stakeHash ⟨1,1,minDelegateStake,0,false⟩ ∅
      votingPower := AList.insert 1 ⟨.zero,⟨0,0,minDelegateStake⟩,5⟩ ∅ } }

def lowerRequest : Submission ℕ := floorRequest 1 0 0 (.stake ⟨10,0⟩ minRepStake)

theorem delegateSample_stands (a : ℕ) : delegateSample.gov.Stands a := by
  by_cases ha : a = 1
  · subst ha
    have hlookup : delegateSample.gov.reps.lookup 1 = some ⟨0,0,7,0⟩ := by decide +kernel
    have hstake : delegateSample.gov.stakes.lookup 1 =
        some ⟨1,minDelegateStake,StakingManager.fundsHash Config.sample 1 1 0⟩ := by decide +kernel
    have hstaked : ∀ amount ≤ minDelegateStake,delegateSample.gov.SelfStaked 1 amount :=
      fun amount hle => ⟨_,hstake,rfl,hle⟩
    refine ⟨⟨fun rep hrep => ?_,fun rep hrep hne => ?_⟩,fun _ => by decide +kernel,fun _ => ?_,
      fun _ => ?_⟩
    · cases hlookup.symm.trans hrep
      decide +kernel
    · cases hlookup.symm.trans hrep
      exact absurd rfl hne
    · exact hstaked _ (by decide)
    · exact hstaked _ (BitVec.le_refl _)
  · have hdelegate : delegateSample.gov.isDelegateNextEpoch a =
        some ([1].any fun d => decide (d = a)) := rfl
    refine stands_of_none ?_ ?_
    · exact AList.lookup_insert_ne ha
    · rw [hdelegate]
      simpa using fun h => ha h.symm

/-- A representative has its stake with another one, and a delegate has less than a delegate
needs. -/
theorem floor_missed :
    (∃ s' deposits,Machine.exec (process Config.sample) floorSample
        [startRequest,proxyRequest,startProxied] = some (s',deposits) ∧
      (∀ a,floorSample.gov.Stands a) ∧ ¬s'.gov.StakeFloor) ∧
    ∃ s' deposits,Machine.exec (process Config.sample) delegateSample [lowerRequest] =
        some (s',deposits) ∧
      (∀ a,delegateSample.gov.Stands a) ∧ ¬s'.gov.StakeFloor := by
  constructor
  · have hrun : (Machine.exec (process Config.sample) floorSample
        [startRequest,proxyRequest,startProxied]).map (fun r => (r.1.gov.isRepNextEpoch 1,
          (r.1.gov.stakes.lookup 1).map StakedFunds.target)) = some (true,some 2) := by
      decide +kernel
    obtain ⟨r,hr,hroles⟩ := map_eq_some_iff.mp hrun
    simp only [Prod.mk.injEq,map_eq_some_iff] at hroles
    obtain ⟨hrep,f,hf,htarget⟩ := hroles
    refine ⟨r.1,r.2,hr,floorSample_stands,fun hfloor => ?_⟩
    cases (hfloor.unlocked 1 f (.inl hrep) hf).symm.trans htarget
  · have hrun : (Machine.exec (process Config.sample) delegateSample [lowerRequest]).map
        (fun r => (r.1.gov.isDelegateNextEpoch 1,
          (r.1.gov.stakes.lookup 1).map StakedFunds.amount)) =
        some (some true,some minRepStake) := by
      decide +kernel
    obtain ⟨r,hr,hroles⟩ := map_eq_some_iff.mp hrun
    simp only [Prod.mk.injEq,map_eq_some_iff] at hroles
    obtain ⟨hdelegate,f,hf,hamount⟩ := hroles
    refine ⟨r.1,r.2,hr,delegateSample_stands,fun hfloor => ?_⟩
    obtain ⟨f',hf',-,hle⟩ := hfloor.delegate 1 (.inr hdelegate)
    cases hf.symm.trans hf'
    rw [hamount] at hle
    exact absurd hle (by decide)

end Sample

end Store

end LogosCore.Ledger
