import LogosCore.Liabilities

/-! # Secondary liabilities

Funds that move to another target leave a secondary liability behind. The code creates one
only if all secondary liabilities of the source have the same target, looks for the first one
that has not expired and lets expired ones stay until it prunes. That works because every
secondary liability outlives the last pruning. -/
namespace LogosCore.Ledger

variable {H : Type} [DecidableEq H] [Zero H] {cfg : Config H}

open Function Option Program StakingManager LiabilityManager

/-- One target for each source, and nothing expired when the source was last pruned. -/
structure GovernanceStore.Tidy (cfg : Config H) (updated : H → Epoch) (g : GovernanceStore H) :
    Prop where
  orderly : g.Orderly cfg
  single : ∀ h h' l l',g.Secondary h l → g.Secondary h' l' → l.source = l'.source →
    l.target = l'.target
  pending : ∀ h l,g.Secondary h l → updated l.source < l.expirationEpoch

theorem GovernanceStore.Tidy.of_same {updated : H → Epoch} {g g' : GovernanceStore H}
    (ht : g.Tidy cfg updated) (h : g.SameSecondary g' ∧ g'.Orderly cfg) : g'.Tidy cfg updated where
  orderly := h.2
  single k k' l l' hl hl' :=
    ht.single k k' l l' ((h.1.master k l).mp hl) ((h.1.master k' l').mp hl')
  pending k l hl := ht.pending k l ((h.1.master k l).mp hl)

/-- The liabilities of the store that are left when expired secondary ones are removed. -/
structure GovernanceStore.Pruned (cfg : Config H) (epoch : Epoch) (g g' : GovernanceStore H) :
    Prop where
  orderly : g'.Orderly cfg
  shrinks : ∀ h l,g'.masterLiabilities.lookup h = some l → g.masterLiabilities.lookup h = some l
  kept : ∀ h l,g.masterLiabilities.lookup h = some l →
    l.isSecondary = false ∨ epoch < l.expirationEpoch → g'.masterLiabilities.lookup h = some l

variable {expiration : Epoch} {l : Liability H} {f : StakedFunds H} {ts : List (ThawingFunds H)}

namespace LiabilityManager

variable {E : Halt → Prop} {g : GovernanceStore H} {epoch : Epoch} {target source : H}

section Ask

/-- The search looks at existing liabilities only, and ends at one that has not expired. -/
theorem unexpiredTarget_spec (epoch : Epoch) {hs : List H}
    (hmem : ∀ h ∈ hs,∃ l,g.masterLiabilities.lookup h = some l) :
    ∃ r,unexpiredTarget g epoch hs = some r ∧
      (r = none → ∀ h ∈ hs,∀ l,g.masterLiabilities.lookup h = some l → ¬epoch < l.expirationEpoch) ∧
      ∀ t,r = some t → ∃ h ∈ hs,∃ l,g.masterLiabilities.lookup h = some l ∧
        epoch < l.expirationEpoch ∧ l.target = t := by
  induction hs with
  | nil => exact ⟨none,rfl,by simp,by simp⟩
  | cons h hs ih =>
    obtain ⟨l,hl⟩ := hmem h List.mem_cons_self
    unfold unexpiredTarget
    rw [hl,bind_some]
    by_cases hlive : epoch < l.expirationEpoch
    · refine ⟨some l.target,if_pos hlive,by simp,?_⟩
      rintro t ⟨⟩
      exact ⟨h,List.mem_cons_self,l,hl,hlive,rfl⟩
    · obtain ⟨r,hr,hnone,hsome⟩ := ih fun h' hh' => hmem h' (.tail _ hh')
      refine ⟨r,(if_neg hlive).trans hr,fun hr' h' hh' l' hl' => ?_,fun t ht => ?_⟩
      · rcases List.mem_cons.mp hh' with rfl | hh'
        · cases hl.symm.trans hl'
          exact hlive
        · exact hnone hr' h' hh' l' hl'
      · obtain ⟨h',hh',hrest⟩ := hsome t ht
        exact ⟨h',.tail _ hh',hrest⟩

/-- All unexpired secondary liabilities of a source have the given target. -/
def Compatible (g : GovernanceStore H) (target source : H) (epoch : Epoch) : Prop :=
  ∀ h l,g.Secondary h l → l.source = source → epoch < l.expirationEpoch → l.target = target

/-- The code's answer, which it always gives, looks at part of the list only. -/
theorem canCreateSecondaryLiability_spec (target source : H) (epoch : Epoch)
    (hfree : cfg.CollisionFree) (ho : g.Orderly cfg)
    (hsingle : ∀ h h' l l',g.Secondary h l → g.Secondary h' l' → l.source = l'.source →
      l.target = l'.target) :
    ∃ b,canCreateSecondaryLiability cfg g target source epoch = some b ∧
      (b = true ↔ target ≠ source ∧ Compatible g target source epoch) := by
  unfold canCreateSecondaryLiability
  by_cases hself : target = source
  · exact ⟨false,if_pos hself,by simp [hself]⟩
  · rw [if_neg hself]
    by_cases hexists : Liability.hash cfg ⟨target,source,0,epoch + thawingPeriod,true⟩ ∈
        g.masterLiabilities
    · rw [if_pos hexists]
      refine ⟨true,rfl,iff_of_true rfl ⟨hself,fun h l hl hsource _ => ?_⟩⟩
      obtain ⟨existing,hexisting⟩ := isSome_iff_exists.mp
        (AList.lookup_isSome.mpr hexists)
      obtain ⟨htarget,hsource',-,hsec⟩ := hfree.same (ho.keyed _ _ hexisting).symm
      have hsame := hsingle h _ l existing hl ⟨hexisting,hsec.symm⟩ (hsource.trans hsource')
      exact hsame.trans htarget.symm
    · rw [if_neg hexists]
      have hmem : ∀ h ∈ g.secondaryLiabilities.duplicates source,
          ∃ l,g.masterLiabilities.lookup h = some l := fun h hh => by
        obtain ⟨l,hl,-⟩ := (ho.secondary source h).mp hh
        exact ⟨l,hl⟩
      obtain ⟨r,hr,hnone,hsome⟩ := unexpiredTarget_spec epoch hmem
      rw [hr,map_some]
      cases r with
      | none =>
        refine ⟨true,rfl,iff_of_true rfl ⟨hself,fun h l hl hsource hlive => ?_⟩⟩
        have hlisted := (ho.secondary source h).mpr ⟨l,hl.1,hl.2,hsource⟩
        exact absurd hlive (hnone rfl h hlisted l hl.1)
      | some other =>
        obtain ⟨h0,hh0,l0,hl0,hlive0,rfl⟩ := hsome other rfl
        obtain ⟨l',hl',hsec0,hsource0⟩ := (ho.secondary source h0).mp hh0
        cases hl0.symm.trans hl'
        refine ⟨_,rfl,?_⟩
        rw [decide_eq_true_iff]
        constructor
        · rintro rfl
          refine ⟨hself,fun h l hl hsource _ => ?_⟩
          exact hsingle h h0 l l0 hl ⟨hl0,hsec0⟩ (hsource.trans hsource0.symm)
        · rintro ⟨-,hcompatible⟩
          exact hcompatible h0 l0 ⟨hl0,hsec0⟩ hsource0 hlive0

end Ask

section Prune

theorem wp_expireSecondary {Q : Unit → GovernanceStore H → Prop} {h : H}
    (hl : g.masterLiabilities.lookup h = some l)
    (hexpired : l.expirationEpoch ≤ epoch → (deleteSecondaryLiability h).wp E Q g)
    (hlive : epoch < l.expirationEpoch → Q () g) : (expireSecondary epoch h).wp E Q g := by
  unfold expireSecondary
  rw [wp_bind,wp_get]
  simp only [hl]
  exact wp_ite hexpired fun h => hlive (BitVec.not_le.mp h)

/-- Pruning does not halt: each liability it looks up is there and is listed for its source. -/
theorem wp_expireAll {hs : List H} (ho : g.Orderly cfg) (hnodup : hs.Nodup)
    (hmem : ∀ h ∈ hs,h ∈ g.secondaryLiabilities.duplicates source) :
    (hs.forM (expireSecondary epoch)).wp E (fun _ g' => g.Pruned cfg epoch g' ∧
      ∀ h ∈ hs,∀ l,g'.masterLiabilities.lookup h = some l → epoch < l.expirationEpoch) g := by
  induction hs generalizing g with
  | nil => exact ⟨⟨ho,fun _ _ => id,fun _ _ hl _ => hl⟩,by simp⟩
  | cons h hs ih =>
    have hcons : (h::hs).forM (expireSecondary epoch) =
      expireSecondary epoch h >>= fun _ => hs.forM (expireSecondary epoch) := rfl
    obtain ⟨hnotMem,hnodup⟩ := List.nodup_cons.mp hnodup
    obtain ⟨l,hl,hsec,hsource⟩ := (ho.secondary source h).mp (hmem h List.mem_cons_self)
    rw [hcons,wp_bind]
    refine wp_expireSecondary hl (fun hexpired => ?_) fun hlive => ?_
    · refine wp_deleteSecondaryLiability (fun hnone => ?_) (fun k hk hunlisted => ?_)
        fun k hk _ => ?_
      · rw [hl] at hnone
        cases hnone
      · cases hl.symm.trans hk
        rw [hsource] at hunlisted
        exact absurd (hmem h List.mem_cons_self) hunlisted
      · cases hl.symm.trans hk
        have hlookup := Table.lookup_erase_ite g.masterLiabilities h
        refine (ih (ho.deleteSecondary hl) hnodup fun h' hh' => ?_).imp fun _ g' hpruned => ?_
        · have hne : h' ≠ h := fun heq => hnotMem (heq ▸ hh')
          rw [Table.duplicates_eraseDuplicate,hsource,if_pos rfl,List.mem_erase_of_ne hne]
          exact hmem h' (.tail _ hh')
        · obtain ⟨⟨ho',hshrinks,hkept⟩,hgone⟩ := hpruned
          refine ⟨⟨ho',fun h' l' hl' => ?_,fun h' l' hl' hstays => ?_⟩,fun h' hh' l' hl' => ?_⟩
          · have hold := hshrinks h' l' hl'
            rw [hlookup] at hold
            split at hold
            · cases hold
            · exact hold
          · refine hkept h' l' ((hlookup h').trans ((if_neg fun heq => ?_).trans hl')) hstays
            subst heq
            cases hl.symm.trans hl'
            rcases hstays with hprimary | hlive
            · exact Bool.false_ne_true (hprimary.symm.trans hsec)
            · exact absurd hlive (BitVec.not_lt.mpr hexpired)
          · rcases List.mem_cons.mp hh' with rfl | hh'
            · have hold := hshrinks h' l' hl'
              rw [hlookup,if_pos rfl] at hold
              cases hold
            · exact hgone h' hh' l' hl'
    · refine (ih ho hnodup fun h' hh' => hmem h' (.tail _ hh')).imp fun _ g' hpruned => ?_
      refine ⟨hpruned.1,fun h' hh' l' hl' => ?_⟩
      rcases List.mem_cons.mp hh' with rfl | hh'
      · cases hl.symm.trans (hpruned.1.shrinks h' l' hl')
        exact hlive
      · exact hpruned.2 h' hh' l' hl'

variable {updated : H → Epoch} {info : AccountInfo H}

/-- Pruning is done once in an epoch; then no secondary liability of the source has expired. -/
theorem wp_pruneSecondaryLiabilities (ho : g.Orderly cfg) :
    (pruneSecondaryLiabilities source info epoch).wp E (fun info' g' => g.Pruned cfg epoch g' ∧
      (epoch ≤ info.epochSecondaryLiabilitiesUpdated ∧ info' = info ∧ g' = g ∨
        info' = { info with epochSecondaryLiabilitiesUpdated := epoch } ∧
        ∀ h l,g'.Secondary h l → l.source = source → epoch < l.expirationEpoch)) g := by
  refine wp_ite (fun hdone => ?_) fun _ => ?_
  · exact ⟨⟨ho,fun _ _ => id,fun _ _ hl _ => hl⟩,.inl ⟨hdone,rfl,rfl⟩⟩
  · rw [wp_bind,wp_get,wp_bind]
    refine (wp_expireAll ho (ho.nodup source) fun _ => id).imp fun _ g' h => ?_
    refine ⟨h.1,.inr ⟨rfl,fun k l hl hsource => h.2 k ?_ l hl.1⟩⟩
    exact (ho.secondary source k).mpr ⟨l,h.1.shrinks k l hl.1,hl.2,hsource⟩

theorem canCreateSecondaryLiability_ne_none (ho : g.Orderly cfg) :
    canCreateSecondaryLiability cfg g target source epoch ≠ none := by
  have hmem : ∀ h ∈ g.secondaryLiabilities.duplicates source,
      ∃ l,g.masterLiabilities.lookup h = some l := fun h hh => by
    obtain ⟨l,hl,-⟩ := (ho.secondary source h).mp hh
    exact ⟨l,hl⟩
  obtain ⟨r,hr,-⟩ := unexpiredTarget_spec epoch hmem
  unfold canCreateSecondaryLiability
  simp only [hr,map_some]
  split
  · exact some_ne_none _
  · split
    · exact some_ne_none _
    · exact some_ne_none _

/-- Creating a secondary liability prunes those of the source, then asks, then stores. -/
theorem wp_createSecondaryLiability_cases (ho : g.Orderly cfg) {amount : Amount}
    (hE : epoch < expiration ∨ E .other) :
    (createSecondaryLiability cfg target source amount expiration info epoch).wp E (fun r g' =>
      ∃ g1,(g.Pruned cfg epoch g1 ∧
        (epoch ≤ info.epochSecondaryLiabilitiesUpdated ∧ r.2 = info ∧ g1 = g ∨
          r.2 = { info with epochSecondaryLiabilitiesUpdated := epoch } ∧
          ∀ h l,g1.Secondary h l → l.source = source → epoch < l.expirationEpoch)) ∧
        (r.1 = false ∧ canCreateSecondaryLiability cfg g1 target source epoch = some false ∧
            g' = g1 ∨ r.1 = true ∧ epoch < expiration ∧
          canCreateSecondaryLiability cfg g1 target source epoch = some true ∧
          g' = g1.putSecondary cfg ⟨target,source,amount,expiration,true⟩)) g := by
  refine wp_ite (fun hsoon => hE.resolve_left (BitVec.not_lt.mpr hsoon)) fun hlater => ?_
  refine (wp_pruneSecondaryLiabilities ho).bind fun info' g1 h1 => ?_
  rw [wp_bind,wp_get]
  refine wp_bind.mpr (wp_need (fun hnone => ?_) fun b hb => wp_ite (fun htrue => ?_) fun hfalse => ?_)
  · exact absurd hnone (canCreateSecondaryLiability_ne_none h1.1.orderly)
  · refine wp_bind.mpr ((wp_store cfg).mpr ?_)
    rw [htrue] at hb
    exact ⟨g1,h1,.inr ⟨rfl,BitVec.not_le.mp hlater,hb,rfl⟩⟩
  · rw [Bool.not_eq_true] at hfalse
    rw [hfalse] at hb
    exact ⟨g1,h1,.inl ⟨rfl,hb,rfl⟩⟩

/-- A secondary liability is only created if compatible, and the store stays tidy. -/
theorem wp_createSecondaryLiability (hfree : cfg.CollisionFree) {amount : Amount}
    (hE : epoch < expiration ∨ E .other)
    (ht : g.Tidy cfg (Function.update updated source info.epochSecondaryLiabilitiesUpdated))
    (hepoch : info.epochSecondaryLiabilitiesUpdated ≤ epoch) :
    (createSecondaryLiability cfg target source amount expiration info epoch).wp E (fun r g' =>
      r.2 = { info with epochSecondaryLiabilitiesUpdated := epoch } ∧
      g'.Tidy cfg (Function.update updated source epoch) ∧
      (r.1 = true ↔ target ≠ source ∧ Compatible g target source epoch) ∧
      ∀ other,Compatible g' other source epoch ↔
        if r.1 then other = target else Compatible g other source epoch) g := by
  refine (wp_createSecondaryLiability_cases ht.orderly hE).imp fun r g' h => ?_
  obtain ⟨g1,⟨hpruned,hdone⟩,hcases⟩ := h
  -- pruned now or earlier in the epoch, the source has no expired secondary liability
  obtain ⟨hinfo,hfresh⟩ : r.2 = { info with epochSecondaryLiabilitiesUpdated := epoch } ∧
      ∀ h l,g1.Secondary h l → l.source = source → epoch < l.expirationEpoch := by
    obtain ⟨hle,hinfo,rfl⟩ | hnow := hdone
    · have heq : info.epochSecondaryLiabilitiesUpdated = epoch := BitVec.le_antisymm hepoch hle
      refine ⟨by rw [hinfo,← heq],fun h l hl hsource => ?_⟩
      have hpending := ht.pending h l hl
      rwa [hsource,update_self,heq] at hpending
    · exact hnow
  have hsingle : ∀ h h' l l',g1.Secondary h l → g1.Secondary h' l' → l.source = l'.source →
      l.target = l'.target := fun h h' l l' hl hl' =>
    ht.single h h' l l' ⟨hpruned.shrinks h l hl.1,hl.2⟩ ⟨hpruned.shrinks h' l' hl'.1,hl'.2⟩
  have hpending : ∀ h l,g1.Secondary h l →
      Function.update updated source epoch l.source < l.expirationEpoch := by
    intro h l hl
    by_cases hsource : l.source = source
    · rw [hsource,update_self]
      exact hfresh h l hl hsource
    · have hold := ht.pending h l ⟨hpruned.shrinks h l hl.1,hl.2⟩
      rw [update_of_ne hsource] at hold ⊢
      exact hold
  -- what pruning removes does not matter for what can be created
  have hcompatible1 : ∀ other,Compatible g1 other source epoch ↔ Compatible g other source epoch := by
    intro other
    constructor
    · intro hother h l hl hsource hlive
      exact hother h l ⟨hpruned.kept h l hl.1 (.inr hlive),hl.2⟩ hsource hlive
    · intro hother h l hl hsource hlive
      exact hother h l ⟨hpruned.shrinks h l hl.1,hl.2⟩ hsource hlive
  obtain ⟨b,hb,hiff⟩ := canCreateSecondaryLiability_spec target source epoch hfree
    hpruned.orderly hsingle
  rw [hcompatible1] at hiff
  refine ⟨hinfo,?_⟩
  obtain ⟨hfalse,hcannot,rfl⟩ | ⟨htrue,hlater,hcan,rfl⟩ := hcases
  · have hb : b = false := some.inj (hb.symm.trans hcannot)
    rw [hb] at hiff
    rw [hfalse]
    exact ⟨⟨hpruned.orderly,hsingle,hpending⟩,hiff,hcompatible1⟩
  · have hb : b = true := some.inj (hb.symm.trans hcan)
    obtain ⟨hne,hcompatible⟩ := hiff.mp hb
    obtain ⟨sum,hlookup⟩ := GovernanceStore.lookup_putLiability hfree hpruned.orderly.keyed
      ⟨target,source,amount,expiration,true⟩
    -- a secondary liability of the new store is the new one or was there before
    have hcases : ∀ h l,(g1.putSecondary cfg ⟨target,source,amount,expiration,true⟩).Secondary h l →
        l = ⟨target,source,sum,expiration,true⟩ ∨ g1.Secondary h l := by
      rintro h l ⟨hl,hsec⟩
      rw [GovernanceStore.lookup_putSecondary,hlookup] at hl
      split at hl
      · cases hl
        exact .inl rfl
      · exact .inr ⟨hl,hsec⟩
    have htarget : ∀ h l,g1.Secondary h l → l.source = source → l.target = target :=
      fun h l hl hsource => (hcompatible1 target).mpr hcompatible h l hl hsource (hfresh h l hl hsource)
    refine ⟨⟨hpruned.orderly.putSecondary hfree rfl,fun h h' l l' hl hl' hsource => ?_,
      fun h l hl => ?_⟩,iff_of_true htrue ⟨hne,hcompatible⟩,fun other => ?_⟩
    · rcases hcases h l hl with rfl | hl <;> rcases hcases h' l' hl' with rfl | hl'
      · rfl
      · exact (htarget h' l' hl' hsource.symm).symm
      · exact htarget h l hl hsource
      · exact hsingle h h' l l' hl hl' hsource
    · rcases hcases h l hl with rfl | hl
      · rw [update_self]
        exact hlater
      · exact hpending h l hl
    · rw [htrue,if_pos rfl]
      constructor
      · intro hother
        have hnew : (g1.putSecondary cfg ⟨target,source,amount,expiration,true⟩).Secondary
            (Liability.hash cfg ⟨target,source,amount,expiration,true⟩)
            ⟨target,source,sum,expiration,true⟩ := by
          refine ⟨?_,rfl⟩
          rw [GovernanceStore.lookup_putSecondary,hlookup,if_pos rfl]
        exact (hother _ _ hnew rfl hlater).symm
      · rintro rfl h l hl hsource -
        rcases hcases h l hl with rfl | hl
        · rfl
        · exact htarget h l hl hsource

end Prune

end LiabilityManager

namespace GovernanceStore

/-- The store is still in order, with the same secondary liabilities. -/
structure Keeps (cfg : Config H) (g g' : GovernanceStore H) : Prop where
  same : g.SameSecondary g'
  orderly : g'.Orderly cfg

variable {g g1 g' : GovernanceStore H}

theorem Keeps.trans (h1 : g.Keeps cfg g1) (h2 : g1.Keeps cfg g') : g.Keeps cfg g' :=
  ⟨⟨h2.same.index.trans h1.same.index,fun h l => (h2.same.master h l).trans (h1.same.master h l)⟩,
    h2.orderly⟩

theorem Keeps.wp {α : Type} {x : Gov H α} {E : Halt → Prop} (h : g.Keeps cfg g1)
    (hx : g1.Orderly cfg → x.wp E (fun _ => g1.Keeps cfg) g1) : x.wp E (fun _ => g.Keeps cfg) g1 :=
  (hx h.orderly).imp fun _ _ => h.trans

namespace Orderly

variable (ho : g.Orderly cfg)
include ho

theorem keep_power (hp : g.OnlyPower g') : g.Keeps cfg g' := by
  refine ⟨?_,ho.power hp⟩
  rw [hp]
  exact ⟨rfl,fun _ _ => .rfl⟩

theorem keep_putPrimary (hfree : cfg.CollisionFree)
    (hl : l.isSecondary = false) : g.Keeps cfg (g.putLiability cfg l) :=
  ⟨(ho.putPrimary hfree hl).1,(ho.putPrimary hfree hl).2⟩

theorem keep_putStake {a : H} (hf : f.Formed cfg a) :
    g.Keeps cfg { g with stakes := g.stakes.insert a f } :=
  ⟨⟨rfl,fun _ _ => .rfl⟩,ho.putStake hf⟩

theorem keep_dropStake (a : H) : g.Keeps cfg { g with stakes := g.stakes.erase a } :=
  ⟨⟨rfl,fun _ _ => .rfl⟩,ho.dropStake a⟩

theorem keep_setThawing {a : H} {t : Table H (List (ThawingFunds H))}
    (heq : ∀ c,t.duplicates c = if c = a then ts else g.thawing.duplicates c)
    (hts : ∀ t ∈ ts,t.Formed cfg a) : g.Keeps cfg { g with thawing := t } :=
  ⟨⟨rfl,fun _ _ => .rfl⟩,ho.setThawing heq hts⟩

theorem keep_eraseThawing (a : H) (t : ThawingFunds H) :
    g.Keeps cfg { g with thawing := g.thawing.eraseDuplicate a t } :=
  ho.keep_setThawing (fun _ => Table.duplicates_eraseDuplicate ..) fun u hu =>
    ho.thawing a u (List.mem_of_mem_erase hu)

theorem formed {g0 : GovernanceStore H} {a : H} {st : Option (StakedFunds H)}
    (h : g0.Holds a st ts g) : (∀ f ∈ st,f.Formed cfg a) ∧ ∀ t ∈ ts,t.Formed cfg a := by
  rw [← h.lookup_self,← h.duplicates_self]
  exact ⟨ho.staked a,ho.thawing a⟩

end Orderly

end GovernanceStore

namespace StakingManager

section Keeps
variable {E : Halt → Prop} {g : GovernanceStore H} {a : H} (hfree : cfg.CollisionFree)
  (hE : E .liability)
include hfree hE

variable (ho : g.Orderly cfg)
include ho

theorem keeps_updateLiabilityAmount {hash target source : H}
    (hhash : hash = fundsHash cfg target source expiration) (amount : Amount) :
    (updateLiabilityAmount hash amount).wp E (fun _ => g.Keeps cfg) g := by
  rw [hhash]
  refine wp_updateLiabilityAmount (fun _ => hE) fun l hl => ?_
  obtain ⟨hsame,hset⟩ := ho.setAmount hl (ho.not_secondary_of_fundsHash hfree hl) amount
  exact ⟨hsame,hset⟩

theorem keeps_deleteLiability {hash target source : H}
    (hhash : hash = fundsHash cfg target source expiration) :
    (deleteLiability hash).wp E (fun _ => g.Keeps cfg) g := by
  rw [hhash]
  refine wp_deleteLiability (fun _ => hE) (fun _ _ _ => hE) fun l hl => ?_
  obtain ⟨hsame,hdeleted⟩ := ho.deletePrimary hl (ho.not_secondary_of_fundsHash hfree hl)
  exact ⟨hsame,hdeleted⟩

theorem keeps_storeStaked (hf : f.Formed cfg a) :
    (storeStaked f a).wp E (fun _ => g.Keeps cfg) g := by
  exact (ho.keep_putStake hf).wp fun ho => keeps_updateLiabilityAmount hfree hE ho hf _

theorem keeps_updateStaked (hf : f.Formed cfg a) (newAmount : Amount) :
    (updateStaked f a newAmount).wp E (fun _ => g.Keeps cfg) g := by
  refine wp_ite (fun _ => keeps_storeStaked hfree hE ho (hf.withAmount _)) fun _ => ?_
  exact (ho.keep_dropStake a).wp fun ho => keeps_deleteLiability hfree hE ho hf

/-- Funds that are consolidated have the same liability, so this is no reason to halt. -/
theorem keeps_storeThawing {t : ThawingFunds H} (hformed : t.Formed cfg a) :
    (storeThawing cfg t a).wp E (fun _ => g.Keeps cfg) g := by
  have hold := ho.thawing a
  unfold storeThawing
  rw [wp_bind,wp_get]
  dsimp only
  split
  · next i u hfind =>
    obtain ⟨j,hj,hj'⟩ := bind_eq_some_iff.mp hfind
    obtain ⟨v,hv,heq⟩ := map_eq_some_iff.mp hj'
    cases heq
    obtain ⟨w,hw,hkey⟩ := findConsolidated_some hj
    cases hw.symm.trans hv
    have hu := hold u (List.mem_of_getElem? hv)
    have hhash : u.liabilityHash = t.liabilityHash := by
      rw [hu,hformed]
      exact congrArg (fun k => fundsHash cfg k.2 a k.1) hkey
    refine wp_ite (fun _ => ?_) fun hne => absurd hhash hne
    refine (ho.keep_setThawing (fun c => Table.duplicates_insert ..) fun w hw => ?_).wp fun ho =>
      keeps_updateLiabilityAmount hfree hE ho hu _
    rcases List.mem_or_eq_of_mem_set hw with hw | rfl
    · exact hold w hw
    · exact hu.withAmount _
  · refine (ho.keep_setThawing (fun c => Table.duplicates_putDuplicate ..) fun w hw => ?_).wp
      fun ho => keeps_updateLiabilityAmount hfree hE ho hformed _
    split at hw
    · exact hold w hw
    · rcases (List.mem_orderedInsert _).mp hw with rfl | hw
      · exact hformed
      · exact hold w hw

theorem keeps_updateThawing {t : ThawingFunds H} (hformed : t.Formed cfg a)
    (newAmount : Amount) : (updateThawing cfg t a newAmount).wp E (fun _ => g.Keeps cfg) g := by
  refine (ho.keep_eraseThawing a t).wp fun ho => wp_ite (fun _ => ?_) fun _ => ?_
  · exact keeps_storeThawing hfree hE ho (hformed.withAmount _)
  · exact keeps_deleteLiability hfree hE ho hformed

end Keeps

end StakingManager

/-- The store is tidy while an account acts that last pruned in the given epoch. -/
def GovernanceStore.TidyFor (cfg : Config H) (updated : H → Epoch) (origin : H) (epoch : Epoch)
    (info : AccountInfo H) (g : GovernanceStore H) : Prop :=
  g.Tidy cfg (Function.update updated origin info.epochSecondaryLiabilitiesUpdated) ∧
    info.epochSecondaryLiabilitiesUpdated ≤ epoch

theorem GovernanceStore.TidyFor.keep {updated : H → Epoch} {origin : H} {epoch : Epoch}
    {info : AccountInfo H} {g g' : GovernanceStore H}
    (ht : g.TidyFor cfg updated origin epoch info) (h : g.Keeps cfg g') :
    g'.TidyFor cfg updated origin epoch info :=
  ⟨ht.1.of_same ⟨h.same,h.orderly⟩,ht.2⟩

namespace StakingManager

variable {updated : H → Epoch} {origin : H} {epoch : Epoch} {info : AccountInfo H}
  {g g' : GovernanceStore H}

theorem tidy_power (ht : g.TidyFor cfg updated origin epoch info) (hp : g.OnlyPower g') :
    g'.TidyFor cfg updated origin epoch info :=
  ht.keep (ht.1.orderly.keep_power hp)

variable (hfree : cfg.CollisionFree)
include hfree

def tidily (cfg : Config H) (updated : H → Epoch) (origin : H) (epoch : Epoch) : Acting H :=
  fun info _ _ _ _ g => g.TidyFor cfg updated origin epoch info

theorem tidily_laws {g0 : GovernanceStore H} : Acting.Laws cfg g0 origin anyHalt True False
    expiration (tidily cfg updated origin epoch) where
  other := trivial
  wellFormed _ := fun h => h.1.1.orderly.formed h.2
  distinct h := h.elim
  storeThawing h _ hf _ :=
    (keeps_storeThawing hfree trivial h.1.1.orderly (hf trivial)).imp fun _ _ => h.1.keep

theorem tidily_stakeLaws {g0 : GovernanceStore H} {target : H} : Acting.StakeLaws cfg g0 origin
    anyHalt True False epoch target (tidily cfg updated origin epoch) where
  toLaws := tidily_laws hfree
  votingPower := trivial
  balance := trivial
  power h := tidy_power h.1
  spend _ _ h _ heq := by
    rw [heq]
    exact h
  createStaked h _ := h.1.keep (h.1.1.orderly.keep_putPrimary hfree rfl)
  createThawing h _ := h.1.keep (h.1.1.orderly.keep_putPrimary hfree rfl)
  secondary h _ _ _ := by
    refine (wp_createSecondaryLiability hfree (.inr trivial) h.1.1 h.1.2).imp fun r g1 hr => ?_
    rw [hr.1]
    exact ⟨hr.2.1,BitVec.le_refl _⟩
  updateStaked h _ := (keeps_updateStaked hfree trivial h.1.1.orderly
    ((h.1.1.orderly.formed h.2).1 _ rfl) _).imp fun _ _ => h.1.keep
  storeStaked h _ hf _ _ _ _ :=
    (keeps_storeStaked hfree trivial h.1.1.orderly (hf trivial)).imp fun _ _ => h.1.keep
  dropStake h _ := h.1.keep (h.1.1.orderly.keep_dropStake origin)
  updateThawing h _ hf _ _ :=
    (keeps_updateThawing hfree trivial h.1.1.orderly (hf trivial) _).imp fun _ _ => h.1.keep
  empty h _ := h.1

theorem tidily_redateLaws {g0 : GovernanceStore H} : Acting.RedateLaws cfg g0 origin anyHalt True
    False expiration (fun _ => True) (tidily cfg updated origin epoch) where
  toLaws := tidily_laws hfree
  perm h _ := h
  redate := by
    intro info st ts ks n g t h _ hf _
    refine (keeps_deleteLiability hfree trivial h.1.1.orderly (hf trivial)).imp fun _ g1 h1 => ?_
    have hput := h1.orderly.keep_putPrimary hfree
      (l := ⟨t.target,origin,t.amount,expiration,false⟩) rfl
    exact h.1.keep ((h1.trans hput).trans (hput.orderly.keep_eraseThawing origin t))

theorem tidy_pruneThawing (ht : g.TidyFor cfg updated origin epoch info) :
    (pruneThawing origin info epoch).wp anyHalt
      (GovernanceStore.TidyFor cfg updated origin epoch) g := by
  refine wp_ite (fun _ => ht) fun _ => ?_
  have hfilter := ht.keep (ht.1.orderly.keep_setThawing (t := g.thawing.insert origin
    ((g.thawing.duplicates origin).filter fun t => ¬t.Pruneable epoch))
    (fun c => Table.duplicates_insert ..) fun t hmem =>
      ht.1.orderly.thawing origin t (List.mem_of_mem_filter hmem))
  refine (AccountInfo.wp_setAvailableBalance trivial _ _ _ (.inr trivial) _).imp
    fun info' g1 h1 => ?_
  obtain ⟨hpower,hinfo,-⟩ := h1
  rw [hinfo]
  exact tidy_power hfilter hpower

theorem tidy_perform {e : FundsEvent H} (ht : g.TidyFor cfg updated e.origin e.epoch info) :
    (e.perform cfg info).wp anyHalt (GovernanceStore.TidyFor cfg updated e.origin e.epoch) g := by
  have hself : (tidily cfg updated e.origin e.epoch).On g e.origin info
    (g.stakes.lookup e.origin) (g.thawing.duplicates e.origin) [] 0 g := ⟨ht,.self g e.origin⟩
  unfold FundsEvent.perform
  split
  · refine (Acting.on_stake (tidily_stakeLaws hfree) hself False.elim).imp fun _ _ h => ?_
    obtain ⟨_,_,_,h,-⟩ := h
    exact h.1
  · refine (info.wp_setBalance trivial _ _ (.inr trivial) _).imp fun info' g' h => ?_
    obtain ⟨hpower,hinfo,-⟩ := h
    rw [hinfo]
    exact tidy_power ht hpower
  · exact tidy_pruneThawing hfree ht
  · exact (Acting.on_markThawingAsFrozen (tidily_redateLaws hfree) hself
      fun _ _ _ _ => trivial).bind fun _ _ h => h.choose_spec.1
  · exact (Acting.on_setExpirationOfFrozen (tidily_redateLaws hfree) hself
      (fun _ _ _ => trivial) False.elim).bind fun _ _ h => h.choose_spec.1

end StakingManager

namespace Holdings

/-- The store is tidy, and no account has pruned after the given epoch. -/
structure Tidy (cfg : Config H) (clock : Epoch) (s : Holdings H) : Prop where
  gov : s.gov.Tidy cfg fun a => (s.info a).epochSecondaryLiabilitiesUpdated
  updated : ∀ a,(s.info a).epochSecondaryLiabilitiesUpdated ≤ clock

theorem step_tidy (hfree : cfg.CollisionFree) {s s' : Holdings H} {e : FundsEvent H}
    {o : List Empty} {clock : Epoch} (hs : s.Tidy cfg clock) (hclock : clock ≤ e.epoch)
    (h : s.step cfg e = some (s',o)) : s'.Tidy cfg e.epoch := by
  obtain ⟨info',g',hrun,rfl⟩ := step_eq_some cfg h
  have hold : ∀ a,(s.info a).epochSecondaryLiabilitiesUpdated ≤ e.epoch := fun a =>
    BitVec.le_trans (hs.updated a) hclock
  have hfor : s.gov.TidyFor cfg (fun a => (s.info a).epochSecondaryLiabilitiesUpdated) e.origin
      e.epoch (s.info e.origin) := by
    refine ⟨?_,hold e.origin⟩
    rw [update_eq_self]
    exact hs.gov
  obtain ⟨htidy,hle⟩ := (tidy_perform hfree hfor).run hrun
  have hupdate : (fun a => ((⟨s.accounts.insert e.origin info',g'⟩ : Holdings H).info
      a).epochSecondaryLiabilitiesUpdated) =
      Function.update (fun a => (s.info a).epochSecondaryLiabilitiesUpdated) e.origin
        info'.epochSecondaryLiabilitiesUpdated := by
    funext a
    rw [info_insert,update_apply]
    split <;> rfl
  refine ⟨?_,fun a => ?_⟩
  · rw [hupdate]
    exact htidy
  · rw [info_insert]
    split
    · exact hle
    · exact hold a

/-- Over nondecreasing epochs the store stays tidy. -/
theorem exec_tidy (hfree : cfg.CollisionFree) {s s' : Holdings H} {es : List (FundsEvent H)}
    {o : List Empty} {clock now : Epoch} (hs : s.Tidy cfg clock)
    (hepochs : (clock::es.map FundsEvent.epoch ++ [now]).Pairwise (· ≤ ·))
    (h : Machine.exec (step cfg) s es = some (s',o)) : s'.Tidy cfg now := by
  induction es generalizing s o clock with
  | nil =>
    cases h
    have hle : clock ≤ now := (List.pairwise_cons.mp hepochs).1 now (by simp)
    exact ⟨hs.gov,fun a => BitVec.le_trans (hs.updated a) hle⟩
  | cons e es ih =>
    obtain ⟨s1,o1,o2,h1,h2,-⟩ := Machine.exec_cons_eq_some h
    obtain ⟨hclock,hrest⟩ := List.pairwise_cons.mp hepochs
    exact ih (step_tidy hfree hs (hclock e.epoch (by simp)) h1) hrest h2

/-- The unexpired secondary liabilities of a source have one target. The code says that another may
be created exactly if it has that target and is not the source, and creates none if it says no. -/
theorem exec_single_target (hfree : cfg.CollisionFree) {s s' : Holdings H}
    {es : List (FundsEvent H)} {o : List Empty} {clock now : Epoch} (hs : s.Tidy cfg clock)
    (hepochs : (clock::es.map FundsEvent.epoch ++ [now]).Pairwise (· ≤ ·))
    (h : Machine.exec (step cfg) s es = some (s',o)) :
    (∀ h h' l l',s'.gov.Secondary h l → s'.gov.Secondary h' l' → now < l.expirationEpoch →
      now < l'.expirationEpoch → l.source = l'.source → l.target = l'.target) ∧
    (∀ target source,∃ b,canCreateSecondaryLiability cfg s'.gov target source now = some b ∧
      (b = true ↔ target ≠ source ∧ Compatible s'.gov target source now)) ∧
    ∀ target source amount expiration r g',
      (createSecondaryLiability cfg target source amount expiration (s'.info source) now).run
        s'.gov = .ok (r,g') → r.1 = true →
      canCreateSecondaryLiability cfg s'.gov target source now = some true := by
  have htidy := exec_tidy hfree hs hepochs h
  have hask := fun target source =>
    canCreateSecondaryLiability_spec target source now hfree htidy.gov.orderly htidy.gov.single
  refine ⟨fun h h' l l' hl hl' _ _ => htidy.gov.single h h' l l' hl hl',hask,?_⟩
  intro target source amount expiration r g' hrun hcreated
  have hgov : s'.gov.Tidy cfg (Function.update
      (fun a => (s'.info a).epochSecondaryLiabilitiesUpdated) source
      (s'.info source).epochSecondaryLiabilitiesUpdated) := by
    rw [update_eq_self]
    exact htidy.gov
  obtain ⟨-,-,hallowed,-⟩ := (wp_createSecondaryLiability (E := anyHalt) hfree (.inr trivial) hgov
    (htidy.updated source)).run hrun
  obtain ⟨b,hb,hiff⟩ := hask target source
  rw [hb,hiff.mpr (hallowed.mp hcreated)]

theorem sample_tidy : sample.Tidy Config.sample 0 := by
  refine ⟨⟨⟨?_,?_,?_,?_,?_,?_⟩,?_,?_⟩,fun a => ?_⟩
  · rintro h l ⟨⟩
  · rintro h l ⟨⟩
  · intro source h
    refine iff_of_false List.not_mem_nil ?_
    rintro ⟨l,⟨⟩,-⟩
  · exact fun _ => List.nodup_nil
  · rintro a f ⟨⟩
  · exact fun _ _ ht => absurd ht List.not_mem_nil
  · rintro h h' l l' ⟨⟨⟩,-⟩
  · rintro h l ⟨⟨⟩,-⟩
  · by_cases h : a = 1
    · subst h
      exact BitVec.le_refl _
    · have hinfo : sample.info a = .default := by
        unfold info sample
        rw [AList.lookup_insert_ne h]
        rfl
      rw [hinfo]
      exact BitVec.le_refl _

/-- Account 1 locks funds with account 2 and moves them to account 3. -/
def redirectRun : List (FundsEvent ℕ) :=
  [sampleEvent 10 (.stake 100 2),sampleEvent 11 (.stake 100 3)]

/-- From then on account 1 may only create secondary liabilities with target 2. -/
theorem exec_single_target_redirectRun :
    ∃ s' o,Machine.exec (step Config.sample) sample redirectRun = some (s',o) ∧
      s'.gov.secondaryLiabilities.duplicates 1 ≠ [] ∧
      ∀ target source,∃ b,canCreateSecondaryLiability Config.sample s'.gov target source 12 = some b ∧
        (b = true ↔ target ≠ source ∧ Compatible s'.gov target source 12) := by
  have hrun : (Machine.exec (step Config.sample) sample redirectRun).map (fun r =>
      decide (r.1.gov.secondaryLiabilities.duplicates 1 ≠ [])) = some true := by decide +kernel
  obtain ⟨⟨s',o⟩,h,hlisted⟩ := map_eq_some_iff.mp hrun
  refine ⟨s',o,h,of_decide_eq_true hlisted,?_⟩
  exact (exec_single_target Config.sample_collisionFree sample_tidy (by decide) h).2.1

/-- Before anything is staked, the source itself is refused as target. -/
theorem canCreateSecondaryLiability_refuses_self :
    Machine.exec (step Config.sample) sample [] = some (sample,[]) ∧
    canCreateSecondaryLiability Config.sample sample.gov 1 1 5 = some false ∧
      Compatible sample.gov 1 1 5 := by
  refine ⟨rfl,rfl,?_⟩
  rintro h l ⟨⟨⟩,-⟩

end Holdings

end LogosCore.Ledger
