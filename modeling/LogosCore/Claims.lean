import LogosCore.Elections

/-! # Claims of rewards

A claim walks down the governance requests of its account, newest first, and harvests every epoch
with the status that the request below it left. Against that walk stands what the requests say: the
newest of them that was made before an epoch and changes the standing of the account decides about
the epoch. -/
namespace LogosCore.Ledger

variable {H : Type} [DecidableEq H] [Zero H]

open Option Program Check
open StateT (run_bind run_get)

/-- How an account takes part in the rewards of an epoch. -/
inductive Standing (H : Type)
  | idle
  | proxied (rep : H) (amount : Amount)
  | representative
deriving DecidableEq,Repr

/-- The standing of an account in the epochs after such a request. -/
def Body.standing : Body H → Option (Standing H)
  | .proxy _ lockProxy rep => some (if lockProxy = 0 then .idle else .proxied rep lockProxy)
  | .announceCandidacy _ _ _ => some .representative
  | .startRepresenting _ _ _ => some .representative
  | .stopRepresenting _ _ => some .idle
  | _ => none

namespace Request

def epochNum (r : Request H) : Epoch := r.body.getEpochNum.getD 0

def governanceSubchainPrev (r : Request H) : H :=
  (r.body.governance.map (·.governanceSubchainPrev)).getD 0

end Request

/-- The request that decides about an epoch, of a history with the newest request first. -/
def decisive (history : List (Request H)) (epoch : Epoch) : Option (Request H) :=
  history.find? fun r => r.body.standing.isSome && decide (r.epochNum < epoch)

def standingIn (history : List (Request H)) (epoch : Epoch) : Standing H :=
  ((decisive history epoch).bind (·.body.standing)).getD .idle

def Standing.Pays : Standing H → ClaimStatus H → Prop
  | .idle,_ => False
  | .proxied rep amount,st => st = ⟨false,rep,amount⟩
  | .representative,st => st.isRep = true ∧ st.rep = 0

def Standing.isProxied : Standing H → Bool
  | .proxied _ _ => true
  | _ => false

/-- A request of an epoch that the end of a term decides does not proxy the next. -/
def ClearStops (history : List (Request H)) (claimEpoch epochNumber : Epoch) : Prop :=
  ∀ q ∈ history,claimEpoch < q.epochNum → q.epochNum < epochNumber →
    (decisive history q.epochNum).any (·.body.isStopRepresenting) = true →
    (standingIn history (q.epochNum + 1)).isProxied = false

instance (history : List (Request H)) (claimEpoch epochNumber : Epoch) :
    Decidable (ClearStops history claimEpoch epochNumber) :=
  inferInstanceAs (Decidable (∀ q ∈ history,_ → _ → _ → _))

/-! ## The walk as a list of payments -/

/-- The governance requests of an account, newest first. -/
def GovernanceStore.subchain (g : GovernanceStore H) : ℕ → H → List (Request H)
  | 0,_ => []
  | fuel+1,hash =>
    if hash = 0 then []
    else match g.requests.lookup hash with
      | none => []
      | some r => r::g.subchain fuel r.governanceSubchainPrev

namespace ClaimStatus

def Earns (st : ClaimStatus H) : Prop := st.rep ≠ 0 ∨ st.isRep = true

instance (st : ClaimStatus H) : Decidable st.Earns := inferInstanceAs (Decidable (_ ∨ _))

def paid (st : ClaimStatus H) (claimEpoch base peak : Epoch) : List (Epoch × ClaimStatus H) :=
  if st.Earns then ((claimedEpochs claimEpoch base peak).getD []).map fun e => (e,st) else []

end ClaimStatus

/-- What the walk over a history pays, each epoch with the status it has reached. -/
def payments (claimEpoch : Epoch) :
    ClaimStatus H → Epoch → List (Request H) → List (Epoch × ClaimStatus H)
  | _,_,[] => []
  | st,peak,r::rs =>
    if peak ≤ claimEpoch then []
    else if r.epochNum < peak then
      match st.update r.body with
      | some (some st) => st.paid claimEpoch r.epochNum peak ++ payments claimEpoch st r.epochNum rs
      | _ => payments claimEpoch st peak rs
    else payments claimEpoch st peak rs

def collect (origin : H) (ps : List (Epoch × ClaimStatus H)) (sum : Rational) : Gov H Rational :=
  ps.foldlM (fun sum p => harvestEpoch origin p.2 sum p.1) sum

/-- The walk down a chain of governance requests meets its end before the fuel runs out. -/
def GovernanceStore.Intact (g : GovernanceStore H) : ℕ → H → Prop
  | 0,_ => False
  | fuel+1,hash => hash = 0 ∨ ∃ r gov,g.requests.lookup hash = some r ∧
      r.body.governance = some gov ∧ g.Intact fuel r.governanceSubchainPrev

variable {origin hash : H} {claimEpoch base peak epoch : Epoch} {st st' : ClaimStatus H}
  {sum : Rational} {g : GovernanceStore H} {fuel : ℕ} {history : List (Request H)}
  {ps qs : List (Epoch × ClaimStatus H)}

theorem collect_append : collect origin (ps ++ qs) sum =
    collect origin ps sum >>= fun sum => collect origin qs sum := by
  simp [collect,List.foldlM_append]

theorem leaves_collect {δ : Type} {f : GovernanceStore H → δ} (hf : ∀ g rewards globalRewards,
    f { g with rewards := rewards,globalRewards := globalRewards } = f g) :
    (collect origin ps sum).Leaves f :=
  leaves_foldlM fun _ _ => leaves_harvestEpoch hf ..

namespace ClaimStatus

/-- A request makes a representative only of an account that has none. -/
theorem update_consistent {b : Body H} (h : st.update b = some (some st')) :
    ¬(st'.rep ≠ 0 ∧ st'.isRep = true) := by
  cases b with
  | proxy gov lockProxy rep =>
    simp only [update,some.injEq] at h
    subst h
    split <;> simp
  | announceCandidacy | startRepresenting | stopRepresenting =>
    simp only [update,some.injEq] at h
    subst h
    simp
  | _ => simp [update] at h

theorem update_isSome {b : Body H} (h : b.governance.isSome) : (st.update b).isSome := by
  cases b <;> simp_all [Body.governance,update]

end ClaimStatus

theorem claimedEpochs_of_ne (h : peak ≠ BitVec.allOnes 32) :
    ∃ l,claimedEpochs claimEpoch base peak = some l :=
  ⟨_,if_neg h⟩

theorem harvestRange_eq (hst : ¬(st.rep ≠ 0 ∧ st.isRep = true))
    (hpeak : st.Earns → peak ≠ BitVec.allOnes 32) :
    harvestRange origin claimEpoch st base peak sum =
      collect origin (st.paid claimEpoch base peak) sum := by
  unfold harvestRange ClaimStatus.paid
  rw [if_neg hst]
  by_cases hpays : st.Earns
  · have hsome : ∃ l,claimedEpochs claimEpoch base peak = some l := claimedEpochs_of_ne (hpeak hpays)
    obtain ⟨l,hl⟩ := hsome
    have hpays' : st.rep ≠ 0 ∨ st.isRep = true := hpays
    rw [if_pos hpays,if_pos hpays',hl]
    simp [need,collect,List.foldlM_map]
  · have hpays' : ¬(st.rep ≠ 0 ∨ st.isRep = true) := hpays
    rw [if_neg hpays,if_neg hpays']
    rfl

theorem GovernanceStore.subchain_congr {g' : GovernanceStore H} (h : g'.requests = g.requests) :
    g'.subchain fuel hash = g.subchain fuel hash := by
  induction fuel generalizing hash with
  | zero => rfl
  | succ fuel ih => simp only [subchain,h,ih]

theorem GovernanceStore.intact_congr {g' : GovernanceStore H} (h : g'.requests = g.requests) :
    g'.Intact fuel hash ↔ g.Intact fuel hash := by
  induction fuel generalizing hash with
  | zero => rfl
  | succ fuel ih => simp only [Intact,h,ih]

theorem payments_of_le (h : peak ≤ claimEpoch) : payments claimEpoch st peak history = [] := by
  cases history with
  | nil => rfl
  | cons r rs => simp [payments,h]

section Round

variable {r : Request H} {gov : Governance H} (hgo : ¬(hash = 0 ∨ peak ≤ claimEpoch))
  (hlookup : g.requests.lookup hash = some r) (hgov : r.body.governance = some gov)

include hgo

theorem claimLoop_of_missing (hnone : g.requests.lookup hash = none) :
    (claimLoop origin claimEpoch (fuel + 1) hash st peak sum).run g = .error .other := by
  simp only [claimLoop,if_neg hgo,run_bind,run_get,pure_bind,hnone]
  rfl

include hlookup

theorem claimLoop_of_stranger (hnone : r.body.governance = none) :
    (claimLoop origin claimEpoch (fuel + 1) hash st peak sum).run g = .error .other := by
  simp only [claimLoop,if_neg hgo,run_bind,run_get,pure_bind,hlookup,run_need_some,hnone]
  rfl

include hgov

/-- A request that is too new, or does not matter, is passed over. -/
theorem claimLoop_of_pass (h : r.epochNum < peak → st.update r.body = some none) :
    (claimLoop origin claimEpoch (fuel + 1) hash st peak sum).run g =
      (claimLoop origin claimEpoch fuel r.governanceSubchainPrev st peak sum).run g := by
  simp only [Request.epochNum,Body.getEpochNum,hgov,map_some,getD_some] at h
  simp only [claimLoop,if_neg hgo,run_bind,run_get,pure_bind,hlookup,
    run_need_some,Request.governanceSubchainPrev,hgov,map_some,getD_some]
  by_cases hbase : gov.epochNum < peak
  · simp only [h hbase,if_pos hbase,run_bind,run_need_some,pure_bind]
  · simp only [if_neg hbase]

theorem claimLoop_of_harvest (hbase : r.epochNum < peak)
    (hupdate : st.update r.body = some (some st')) :
    (claimLoop origin claimEpoch (fuel + 1) hash st peak sum).run g =
      (harvestRange origin claimEpoch st' r.epochNum peak sum >>=
        claimLoop origin claimEpoch fuel r.governanceSubchainPrev st' r.epochNum).run g := by
  have hepoch : r.epochNum = gov.epochNum := by simp [Request.epochNum,Body.getEpochNum,hgov]
  rw [hepoch] at hbase ⊢
  simp only [claimLoop,if_neg hgo,run_bind,run_get,pure_bind,hlookup,
    run_need_some,Request.governanceSubchainPrev,hgov,map_some,getD_some,hupdate,
    if_pos hbase]

end Round

/-- A round that harvests nothing it cannot: what the update makes of the status is consistent. -/
theorem harvestRange_of_update {b : Body H} (hupdate : st.update b = some (some st'))
    (h : peak ≠ BitVec.allOnes 32 ∨
      ∃ r,(harvestRange origin claimEpoch st' base peak sum).run g = .ok r) :
    harvestRange origin claimEpoch st' base peak sum =
      collect origin (st'.paid claimEpoch base peak) sum := by
  have hst := ClaimStatus.update_consistent hupdate
  refine harvestRange_eq hst fun hearns => ?_
  rcases h with h | ⟨r,h⟩
  · exact h
  · rintro rfl
    have hearns' : st'.rep ≠ 0 ∨ st'.isRep = true := hearns
    simp only [harvestRange,if_neg hst,if_pos hearns',claimedEpochs] at h
    cases h

/-- The walk harvests the payments it comes by, if it ends at all. -/
theorem claimLoop_run (hok : (g.Intact fuel hash ∧ peak ≠ BitVec.allOnes 32) ∨
      ∃ r,(claimLoop origin claimEpoch fuel hash st peak sum).run g = .ok r) :
    (claimLoop origin claimEpoch fuel hash st peak sum).run g =
      (collect origin (payments claimEpoch st peak (g.subchain fuel hash)) sum).run g := by
  induction fuel generalizing hash st peak sum g with
  | zero =>
    rcases hok with ⟨hintact,-⟩ | ⟨r,hrun⟩
    · exact hintact.elim
    · cases hrun
  | succ fuel ih =>
    by_cases hstop : hash = 0 ∨ peak ≤ claimEpoch
    · have hnil : payments claimEpoch st peak (g.subchain (fuel + 1) hash) = [] := by
        rcases hstop with hzero | hle
        · simp [GovernanceStore.subchain,hzero,payments]
        · exact payments_of_le hle
      simp only [claimLoop,if_pos hstop,hnil]
      rfl
    · have hstored : ∃ r gov,g.requests.lookup hash = some r ∧ r.body.governance = some gov ∧
          (peak ≠ BitVec.allOnes 32 ∧ g.Intact fuel r.governanceSubchainPrev ∨
            ∃ r,(claimLoop origin claimEpoch (fuel + 1) hash st peak sum).run g = .ok r) := by
        rcases hok with ⟨hintact,hpeak⟩ | ⟨r,hrun⟩
        · rcases hintact with hzero | ⟨r,gov,hlookup,hgov,hrest⟩
          · exact absurd (.inl hzero) hstop
          · exact ⟨r,gov,hlookup,hgov,.inl ⟨hpeak,hrest⟩⟩
        · cases hlookup : g.requests.lookup hash with
          | none =>
            rw [claimLoop_of_missing hstop hlookup] at hrun
            cases hrun
          | some q =>
            cases hgov : q.body.governance with
            | none =>
              rw [claimLoop_of_stranger hstop hlookup hgov] at hrun
              cases hrun
            | some gov => exact ⟨q,gov,rfl,hgov,.inr ⟨r,hrun⟩⟩
      obtain ⟨r,gov,hlookup,hgov,hok'⟩ := hstored
      have hzero : hash ≠ 0 := fun h => hstop (.inl h)
      have hle : ¬peak ≤ claimEpoch := fun h => hstop (.inr h)
      have hchain : g.subchain (fuel + 1) hash = r::g.subchain fuel r.governanceSubchainPrev := by
        simp only [GovernanceStore.subchain,if_neg hzero,hlookup]
      have hdefined : (st.update r.body).isSome :=
        ClaimStatus.update_isSome (isSome_of_eq_some hgov)
      obtain ⟨updated,hupdate⟩ := isSome_iff_exists.mp hdefined
      by_cases hpass : r.epochNum < peak → updated = none
      · have heq : (claimLoop origin claimEpoch (fuel + 1) hash st peak sum).run g =
            (claimLoop origin claimEpoch fuel r.governanceSubchainPrev st peak sum).run g :=
          claimLoop_of_pass hstop hlookup hgov fun h => hpass h ▸ hupdate
        have hpayments : payments claimEpoch st peak (r::g.subchain fuel r.governanceSubchainPrev) =
            payments claimEpoch st peak (g.subchain fuel r.governanceSubchainPrev) := by
          by_cases hbase : r.epochNum < peak
          · simp only [payments,if_neg hle,if_pos hbase,hupdate,hpass hbase]
          · simp only [payments,if_neg hle,if_neg hbase]
        rw [heq] at hok'
        rw [heq,hchain,hpayments]
        exact ih (hok'.imp_left And.symm)
      · obtain ⟨hbase,hsome⟩ := Classical.not_imp.mp hpass
        obtain ⟨st',rfl⟩ := ne_none_iff_exists'.mp hsome
        have heq : (claimLoop origin claimEpoch (fuel + 1) hash st peak sum).run g =
            (harvestRange origin claimEpoch st' r.epochNum peak sum >>=
              claimLoop origin claimEpoch fuel r.governanceSubchainPrev st' r.epochNum).run g :=
          claimLoop_of_harvest hstop hlookup hgov hbase hupdate
        have hpayments : payments claimEpoch st peak (r::g.subchain fuel r.governanceSubchainPrev) =
            st'.paid claimEpoch r.epochNum peak ++
              payments claimEpoch st' r.epochNum (g.subchain fuel r.governanceSubchainPrev) := by
          simp only [payments,if_neg hle,if_pos hbase,hupdate]
        rw [heq,run_bind] at hok'
        rw [heq,hchain,hpayments,collect_append,run_bind,run_bind]
        have hrange : harvestRange origin claimEpoch st' r.epochNum peak sum =
            collect origin (st'.paid claimEpoch r.epochNum peak) sum := by
          refine harvestRange_of_update (g := g) hupdate (hok'.imp And.left ?_)
          rintro ⟨q,hq⟩
          cases hrun : (harvestRange origin claimEpoch st' r.epochNum peak sum).run g with
          | error e =>
            rw [hrun] at hq
            cases hq
          | ok q' => exact ⟨q',rfl⟩
        rw [hrange] at hok' ⊢
        cases hrun : (collect origin (st'.paid claimEpoch r.epochNum peak) sum).run g with
        | error e => rfl
        | ok q =>
          have hrequests : q.2.requests = g.requests :=
            (leaves_collect (f := GovernanceStore.requests) (by intros; rfl)).run hrun
          rw [hrun] at hok'
          refine (ih (hok'.imp_left fun h => ⟨?_,?_⟩)).trans ?_
          · exact (GovernanceStore.intact_congr hrequests).mpr h.2
          · intro hlast
            rw [hlast] at hbase
            exact BitVec.not_allOnes_lt hbase
          · rw [GovernanceStore.subchain_congr hrequests]
            rfl

/-! ## Every epoch at most once -/

theorem mem_claimedEpochs {l : List Epoch} (h : claimedEpochs claimEpoch base peak = some l) :
    epoch ∈ l ↔ base < epoch ∧ epoch ≤ peak ∧ claimEpoch < epoch := by
  unfold claimedEpochs at h
  split at h
  · cases h
  · cases h
    simp only [List.mem_filter,List.mem_map,List.mem_range'_1,decide_eq_true_eq]
    constructor
    · rintro ⟨⟨n,hn,rfl⟩,hclaim⟩
      exact ⟨by bv_omega,by bv_omega,hclaim⟩
    · rintro ⟨hbase,hpeak,hclaim⟩
      exact ⟨⟨epoch.toNat,by bv_omega,by simp⟩,hclaim⟩

theorem nodup_claimedEpochs {l : List Epoch} (h : claimedEpochs claimEpoch base peak = some l) :
    l.Nodup := by
  unfold claimedEpochs at h
  split at h
  · cases h
  · cases h
    refine List.Nodup.filter _ ((List.nodup_map_iff_inj_on List.nodup_range').mpr ?_)
    intro m hm n hn heq
    simp only [List.mem_range'_1] at hm hn
    bv_omega

namespace ClaimStatus

theorem mem_paid {p : Epoch × ClaimStatus H} (h : p ∈ st.paid claimEpoch base peak) :
    st.Earns ∧ p.2 = st ∧ base < p.1 ∧ p.1 ≤ peak ∧ claimEpoch < p.1 := by
  unfold paid at h
  split at h
  · next hearns =>
    cases hl : claimedEpochs claimEpoch base peak with
    | none => simp [hl] at h
    | some l =>
      simp only [hl,getD_some,List.mem_map] at h
      obtain ⟨e,he,rfl⟩ := h
      exact ⟨hearns,rfl,(mem_claimedEpochs hl).mp he⟩
  · cases h

theorem nodup_paid : ((st.paid claimEpoch base peak).map (·.1)).Nodup := by
  unfold paid
  split
  · cases hl : claimedEpochs claimEpoch base peak with
    | none => simp
    | some l => simpa [hl,Function.comp_def] using nodup_claimedEpochs hl
  · simp

end ClaimStatus

theorem mem_payments {p : Epoch × ClaimStatus H} (h : p ∈ payments claimEpoch st peak history) :
    claimEpoch < p.1 ∧ p.1 ≤ peak := by
  induction history generalizing st peak with
  | nil => cases h
  | cons r rs ih =>
    unfold payments at h
    split at h
    · cases h
    · split at h
      · next hbase =>
        split at h
        · rcases List.mem_append.mp h with h | h
          · obtain ⟨-,-,-,hpeak,hclaim⟩ := ClaimStatus.mem_paid h
            exact ⟨hclaim,hpeak⟩
          · obtain ⟨hclaim,hle⟩ := ih h
            exact ⟨hclaim,by bv_omega⟩
        · exact ih h
      · exact ih h

theorem nodup_payments : ((payments claimEpoch st peak history).map (·.1)).Nodup := by
  induction history generalizing st peak with
  | nil => simp [payments]
  | cons r rs ih =>
    unfold payments
    split
    · simp
    · split
      · split
        · rw [List.map_append]
          refine ClaimStatus.nodup_paid.append ih fun e hpaid hrest => ?_
          obtain ⟨p,hp,rfl⟩ := List.mem_map.mp hpaid
          obtain ⟨q,hq,heq⟩ := List.mem_map.mp hrest
          have hbase := (ClaimStatus.mem_paid hp).2.2.1
          have hle := (mem_payments hq).2
          bv_omega
        · exact ih
      · exact ih

/-! ## Every epoch as the requests say -/

section Decisive

variable {r : Request H} {rs : List (Request H)}

theorem decisive_cons_of_skip (h : r.body.standing = none ∨ ¬r.epochNum < epoch) :
    decisive (r::rs) epoch = decisive rs epoch := by
  refine List.find?_cons_of_neg ?_
  rcases h with h | h
  · simp [h]
  · simp [h]

theorem decisive_cons_of_take (hstanding : r.body.standing.isSome) (hepoch : r.epochNum < epoch) :
    decisive (r::rs) epoch = some r :=
  List.find?_cons_of_pos (by simp [hstanding,hepoch])

end Decisive

namespace ClaimStatus

variable {b : Body H}

theorem standing_of_pass (h : st.update b = some none) : b.standing = none := by
  cases b <;> simp_all [update,Body.standing]

theorem standing_of_update (h : st.update b = some (some st')) : b.standing.isSome := by
  cases b <;> simp_all [update,Body.standing]

/-- Only a locked proxy leaves a representative behind, unless one was there before. -/
theorem rep_of_update (h : st.update b = some (some st'))
    (hstop : b.isStopRepresenting = true → st.rep = 0)
    (hproxied : (b.standing.getD .idle).isProxied = false) : st'.rep = 0 := by
  cases b with
  | proxy gov lockProxy rep =>
    simp only [update,some.injEq] at h
    subst h
    by_cases hlock : lockProxy = 0
    · simp [hlock]
    · simp only [Body.standing,if_neg hlock,getD_some] at hproxied
      cases hproxied
  | stopRepresenting gov setStake =>
    simp only [update,some.injEq] at h
    subst h
    exact hstop rfl
  | announceCandidacy | startRepresenting =>
    simp only [update,some.injEq] at h
    subst h
    rfl
  | _ => simp [update] at h

theorem pays_of_update (h : st.update b = some (some st'))
    (hstop : b.isStopRepresenting = true → st.rep = 0) (hearns : st'.Earns) :
    (b.standing.getD .idle).Pays st' := by
  cases b with
  | proxy gov lockProxy rep =>
    simp only [update,some.injEq] at h
    subst h
    by_cases hlock : lockProxy = 0
    · simp [hlock,Earns] at hearns
    · simp only [Body.standing,if_neg hlock,getD_some,Standing.Pays]
  | stopRepresenting gov setStake =>
    simp only [update,some.injEq] at h
    subst h
    simp [Earns,hstop rfl] at hearns
  | announceCandidacy | startRepresenting =>
    simp only [update,some.injEq] at h
    subst h
    exact ⟨rfl,rfl⟩
  | _ => simp [update] at h

end ClaimStatus

/-- Where no locked proxy follows the end of a term, every epoch is paid as the requests say. -/
theorem payments_standing (hclear : ClearStops history claimEpoch peak)
    (hstop : ∀ r,decisive history peak = some r → r.body.isStopRepresenting = true → st.rep = 0)
    {p : Epoch × ClaimStatus H} (h : p ∈ payments claimEpoch st peak history) :
    (standingIn history p.1).Pays p.2 := by
  induction history generalizing st peak with
  | nil => cases h
  | cons r rs ih =>
    unfold payments at h
    split at h
    · cases h
    next hclaim =>
    -- passing over a request changes nothing for the epochs up to the peak
    have hpass : (∀ e,e ≤ peak → decisive (r::rs) e = decisive rs e) →
        p ∈ payments claimEpoch st peak rs → (standingIn (r::rs) p.1).Pays p.2 := by
      intro hsame hmem
      have hstanding : ∀ e,e ≤ peak → standingIn (r::rs) e = standingIn rs e := by
        intro e he
        simp only [standingIn,hsame e he]
      rw [hstanding p.1 (mem_payments hmem).2]
      refine ih (fun q hq hlow hhigh hend => ?_) (fun q hq => ?_) hmem
      · rw [← hsame q.epochNum (by bv_omega)] at hend
        rw [← hstanding (q.epochNum + 1) (by bv_omega)]
        exact hclear q (List.mem_cons_of_mem _ hq) hlow hhigh hend
      · rw [← hsame peak (BitVec.le_refl _)] at hq
        exact hstop q hq
    split at h
    · next hbase =>
      split at h
      · next st' hupdate =>
        have hsome := ClaimStatus.standing_of_update hupdate
        have htake : ∀ e,r.epochNum < e → decisive (r::rs) e = some r :=
          fun e he => decisive_cons_of_take hsome he
        have hskip : ∀ e,e ≤ r.epochNum → decisive (r::rs) e = decisive rs e :=
          fun e he => decisive_cons_of_skip (.inr (by bv_omega))
        have hstopped := hstop r (htake peak hbase)
        rcases List.mem_append.mp h with h | h
        · obtain ⟨hearns,heq,hlow,-,-⟩ := ClaimStatus.mem_paid h
          simp only [standingIn,htake p.1 hlow,bind_some,heq]
          exact ClaimStatus.pays_of_update hupdate hstopped hearns
        · have hle := (mem_payments h).2
          simp only [standingIn,hskip p.1 hle]
          refine ih (fun q hq hlow hhigh hend => ?_) (fun q hq hend => ?_) h
          · rw [← hskip q.epochNum (by bv_omega)] at hend
            have hnext := hclear q (List.mem_cons_of_mem _ hq) hlow (by bv_omega) hend
            simp only [standingIn,hskip (q.epochNum + 1) (by bv_omega)] at hnext
            exact hnext
          · rw [← hskip r.epochNum (BitVec.le_refl _)] at hq
            have hlow : claimEpoch < r.epochNum := by
              have := mem_payments h
              bv_omega
            have hnext := hclear r List.mem_cons_self hlow hbase (by simp [hq,hend])
            simp only [standingIn,htake (r.epochNum + 1) (by bv_omega),bind_some] at hnext
            exact ClaimStatus.rep_of_update hupdate hstopped hnext
      · next hother =>
        refine hpass (fun e _ => decisive_cons_of_skip (.inl ?_)) h
        cases hupdate : st.update r.body with
        | none => cases hb : r.body <;> simp_all [ClaimStatus.update,Body.standing]
        | some updated =>
          cases updated with
          | none => exact ClaimStatus.standing_of_pass hupdate
          | some st' => exact absurd hupdate (hother st')
    · next hbase =>
      exact hpass (fun e he => decisive_cons_of_skip (.inr (by bv_omega))) h

/-! ## Sequences of claims -/

theorem lt_of_accepts {epochHash : H} {epochNumber : Epoch} {info : AccountInfo H}
    (h : (validateClaim g epochHash epochNumber (.user info)).Accepts ()) :
    info.claimEpoch < epochNumber := by
  obtain ⟨user,huser,hrest⟩ := accepts_attempt_bind.mp h
  obtain ⟨tip,-,hrest⟩ := accepts_attempt_bind.mp hrest
  cases huser
  exact (accepts_require_bind.mp hrest).1.2

structure Claimant (H : Type) where
  gov : GovernanceStore H
  info : AccountInfo H

/-- A claim, or what happens between two claims, which leaves the claimed epochs alone. -/
inductive ClaimEvent (H : Type)
  | claim (epochHash : H) (epochNumber : Epoch)
  | other (next : Claimant H)

namespace Claimant

def governanceSubchain (s : Claimant H) : List (Request H) :=
  s.gov.subchain (s.gov.requests.entries.length + 1) s.info.governanceSubchainHead

def payments (s : Claimant H) (epochNumber : Epoch) : List (Epoch × ClaimStatus H) :=
  Ledger.payments s.info.claimEpoch ⟨false,0,0⟩ epochNumber s.governanceSubchain

/-- The output of an accepted claim is the epochs it pays. -/
def step (origin : H) (s : Claimant H) : ClaimEvent H → Option (Claimant H × List Epoch)
  | .claim epochHash epochNumber =>
    match (validateClaim s.gov epochHash epochNumber (.user s.info)).run with
    | none => none
    | some (.error _) => some (s,[])
    | some (.ok _) => match (collectReward origin epochNumber s.info).run s.gov with
      | .error _ => none
      | .ok r => some (⟨r.2,r.1.2⟩,(s.payments epochNumber).map (·.1))
  | .other next => if next.info.claimEpoch = s.info.claimEpoch then some (next,[]) else none

variable {s s' : Claimant H} {epochNumber : Epoch}

theorem collectReward_payments {r : (Amount × AccountInfo H) × GovernanceStore H}
    (h : (collectReward origin epochNumber s.info).run s.gov = .ok r) :
    r.1.2.claimEpoch = epochNumber ∧
      ∃ sum,(collect origin (s.payments epochNumber) .zero).run s.gov = .ok (sum,r.2) := by
  have hspec : (collectReward origin epochNumber s.info).wp (fun _ => True) (fun a g' =>
      a.2.claimEpoch = epochNumber ∧
        ∃ sum,(collect origin (s.payments epochNumber) .zero).run s.gov = .ok (sum,g')) s.gov := by
    unfold collectReward processClaim
    rw [wp_bind,wp_bind,wp_get,wp_bind]
    refine wp_iff.mpr ⟨fun sum g' hloop => ?_,fun _ _ => trivial⟩
    have hcollect := (claimLoop_run (.inr ⟨_,hloop⟩)).symm.trans hloop
    refine wp_bind.mpr (wp_need (fun _ => trivial) fun remainder _ => wp_pure.mpr ?_)
    refine wp_ite (fun _ => wp_pure.mpr ?_) fun _ => wp_pure.mpr ?_
    · exact ⟨rfl,sum,hcollect⟩
    · exact ⟨rfl,sum,hcollect⟩
  exact hspec.run h

/-- The epochs paid so far are different, and claimed. -/
structure PaidOnce (log : List Epoch) (s : Claimant H) : Prop where
  nodup : log.Nodup
  claimed : ∀ e ∈ log,e ≤ s.info.claimEpoch

theorem PaidOnce.append {log : List Epoch} (h : PaidOnce log s) (epochNumber : Epoch) :
    (log ++ (s.payments epochNumber).map (·.1)).Nodup := by
  refine h.nodup.append nodup_payments fun e hold hnew => ?_
  obtain ⟨p,hp,rfl⟩ := List.mem_map.mp hnew
  have hle := h.claimed p.1 hold
  have hlt := (mem_payments hp).1
  bv_omega

theorem paidOnce_step {log o : List Epoch} {e : ClaimEvent H} (h : PaidOnce log s)
    (hstep : s.step origin e = some (s',o)) : PaidOnce (log ++ o) s' := by
  cases e with
  | claim epochHash epochNumber =>
    simp only [step] at hstep
    split at hstep
    · cases hstep
    · cases hstep
      simpa using h
    · next hvalid =>
      split at hstep
      · cases hstep
      · next r hrun =>
        cases hstep
        obtain ⟨hepoch,-⟩ := collectReward_payments hrun
        have hnewer : s.info.claimEpoch < epochNumber := lt_of_accepts hvalid
        refine ⟨h.append epochNumber,fun e he => ?_⟩
        rw [hepoch]
        rcases List.mem_append.mp he with hold | hnew
        · have hle := h.claimed e hold
          bv_omega
        · obtain ⟨p,hp,rfl⟩ := List.mem_map.mp hnew
          exact (mem_payments hp).2
  | other next =>
    simp only [step] at hstep
    split at hstep
    · next hsame =>
      cases hstep
      refine ⟨by simpa using h.nodup,fun e he => ?_⟩
      rw [hsame]
      exact h.claimed e (by simpa using he)
    · cases hstep

/-- The next claim harvests epochs that none before has paid, each with the standing the account had
then, if no locked proxy follows the end of a term. -/
theorem exec_payments {es : List (ClaimEvent H)} {log : List Epoch}
    {r : (Amount × AccountInfo H) × GovernanceStore H}
    (hrun : Machine.exec (step origin) s es = some (s',log))
    (hclaim : (collectReward origin epochNumber s'.info).run s'.gov = .ok r)
    (hclear : ClearStops s'.governanceSubchain s'.info.claimEpoch epochNumber) :
    (∃ sum,(collect origin (s'.payments epochNumber) .zero).run s'.gov = .ok (sum,r.2)) ∧
      (log ++ (s'.payments epochNumber).map (·.1)).Nodup ∧
      ∀ p ∈ s'.payments epochNumber,s'.info.claimEpoch < p.1 ∧ p.1 ≤ epochNumber ∧
        (standingIn s'.governanceSubchain p.1).Pays p.2 := by
  have hstart : PaidOnce [] s := ⟨List.nodup_nil,by simp⟩
  have hpaid : PaidOnce log s' := Machine.exec_preserves
    (fun log s e s' o h _ hstep => paidOnce_step h hstep) hstart (Machine.along_true s es) hrun
  refine ⟨(collectReward_payments hclaim).2,hpaid.append epochNumber,fun p hp => ?_⟩
  obtain ⟨hlow,hhigh⟩ := mem_payments hp
  exact ⟨hlow,hhigh,payments_standing hclear (fun _ _ _ => rfl) hp⟩

def samplePool : RewardsInfo := ⟨true,50,200,100,⟨40,1⟩,⟨40,1⟩⟩

/-- An account with the given governance requests, newest first, under the hashes `n`, …, 1. -/
def sample (requests : List (Body ℕ)) : Claimant ℕ where
  gov := { GovernanceStore.empty with
    requests := requests.foldr (fun body t =>
      t.insert (t.entries.length + 1) ⟨1,0,0,0,0,0,body⟩) ∅
    epochs := ((∅ : Table ℕ (EpochBlock ℕ)).insert 80 ⟨56,0,0,[],false,0,0⟩).insert 90
      ⟨62,80,0,[],false,0,0⟩
    epochTip := some (90,62)
    rewards := (((∅ : Table (ℕ × Epoch) RewardsInfo).insert (2,55) samplePool).insert
      (2,58) samplePool).insert (1,60) samplePool }
  info := { AccountInfo.default with
    governanceSubchainHead := requests.length
    claimEpoch := 52 }

/-- A locked proxy until epoch 57 and a term until epoch 61. -/
def sampleTerm : Claimant ℕ :=
  sample [.stopRepresenting ⟨61,2⟩ none,.startRepresenting ⟨57,1⟩ none 50,.proxy ⟨53,0⟩ 100 2]

theorem exec_payments_sampleTerm :
    ∃ s' log r,Machine.exec (step 1) sampleTerm [.claim 80 56] = some (s',log) ∧
      (collectReward 1 62 s'.info).run s'.gov = .ok r ∧
      ClearStops s'.governanceSubchain s'.info.claimEpoch 62 ∧ log = [54,55,56] ∧
      (s'.payments 62).map (·.1) = [58,59,60,61,57] ∧
      (log ++ (s'.payments 62).map (·.1)).Nodup := by
  have hlog : (Machine.exec (step 1) sampleTerm [.claim 80 56]).map (fun r =>
      (r.2,(r.1.payments 62).map (·.1),
        decide (ClearStops r.1.governanceSubchain r.1.info.claimEpoch 62),
        ((collectReward 1 62 r.1.info).run r.1.gov).isOk)) =
      some ([54,55,56],[58,59,60,61,57],true,true) := by
    decide +kernel
  cases hrun : Machine.exec (step 1) sampleTerm [.claim 80 56] with
  | none =>
    rw [hrun] at hlog
    cases hlog
  | some q =>
    rw [hrun] at hlog
    simp only [map_some,some.injEq,Prod.mk.injEq,decide_eq_true_eq] at hlog
    obtain ⟨hpaid,hnext,hclear,hok⟩ := hlog
    cases hclaim : (collectReward 1 62 q.1.info).run q.1.gov with
    | error e =>
      rw [hclaim] at hok
      cases hok
    | ok r => exact ⟨q.1,q.2,r,rfl,hclaim,hclear,hpaid,hnext,(exec_payments hrun hclaim hclear).2.1⟩

/-- A term until epoch 57, and a locked proxy from epoch 60 on. -/
def sampleStop : Claimant ℕ :=
  sample [.proxy ⟨60,2⟩ 100 2,.stopRepresenting ⟨57,1⟩ none,.startRepresenting ⟨53,0⟩ none 50]

/-- In epoch 58 nothing was locked, yet the pool of the representative chosen in epoch 60 pays. -/
theorem stop_pays_later_proxy :
    (validateClaim sampleStop.gov 90 62 (.user sampleStop.info)).Accepts () ∧
      standingIn sampleStop.governanceSubchain 58 = .idle ∧
      (58,⟨false,2,100⟩) ∈ sampleStop.payments 62 ∧
      ((collectReward 1 62 sampleStop.info).run sampleStop.gov).toOption.map (fun r =>
        (r.1.1,(r.2.rewards.lookup (2,58)).map (·.remainingReward))) =
        some (10,some ⟨30,1⟩) := by
  decide +kernel

end Claimant

end LogosCore.Ledger
