import LogosCore.Decomposition
import LogosCore.SecondaryLiabilities

/-! # Liabilities behind the funds

Every record of staked or thawing funds is backed by a liability of the same amount, and no
liability backs two records. A record and its liability are created, consolidated, given
another expiration and deleted by different functions; in between a liability may be there
without its record, or with an amount that is about to be corrected. -/
namespace LogosCore.Ledger

variable {H : Type} [DecidableEq H] [Zero H] {cfg : Config H}

open Option Program StakingManager LiabilityManager ThawingFunds
open List (erase_sublist mem_cons mem_cons_self mem_map mem_map_of_mem mem_singleton nodup_cons
  nodup_nil not_mem_nil)
open Prod (ext fst snd)

theorem Config.CollisionFree.fundsHash_inj (hfree : cfg.CollisionFree) {target target' source
    source' : H} {expiration expiration' : Epoch}
    (h : fundsHash cfg target source expiration = fundsHash cfg target' source' expiration') :
    target = target' ∧ source = source' ∧ expiration = expiration' := by
  have heq := hfree ⟨target,source,0,expiration,false⟩ ⟨target',source',0,expiration',false⟩ h
  simp only [Liability.mk.injEq] at heq
  exact ⟨heq.1,heq.2.1,heq.2.2.2.1⟩

namespace GovernanceStore

/-- The amount of the primary liability of an account with an expiration and a target. -/
def liability (cfg : Config H) (g : GovernanceStore H) (a : H) (k : Epoch × H) : Option Amount :=
  (g.masterLiabilities.lookup (fundsHash cfg k.2 a k.1)).map Liability.amount

/-- One primary liability gets another amount or disappears. -/
structure LiabilitySet (cfg : Config H) (a : H) (k : Epoch × H) (v : Option Amount)
    (g g' : GovernanceStore H) : Prop where
  only : g.OnlyLiabilities g'
  orderly : g'.Orderly cfg
  liability : ∀ c k',g'.liability cfg c k' = if c = a ∧ k' = k then v else g.liability cfg c k'

structure SamePrimary (cfg : Config H) (g g' : GovernanceStore H) : Prop where
  only : g.OnlyLiabilities g'
  orderly : g'.Orderly cfg
  liability : ∀ c k,g'.liability cfg c k = g.liability cfg c k

variable {g g' : GovernanceStore H} {a : H} {k : Epoch × H}

theorem liability_of_lookup (hfree : cfg.CollisionFree) {v : Option (Liability H)}
    (hlookup : ∀ h,g'.masterLiabilities.lookup h =
      if h = fundsHash cfg k.2 a k.1 then v else g.masterLiabilities.lookup h) (c : H)
    (k' : Epoch × H) : g'.liability cfg c k' =
      if c = a ∧ k' = k then v.map Liability.amount else g.liability cfg c k' := by
  unfold liability
  rw [hlookup]
  by_cases heq : c = a ∧ k' = k
  · rw [if_pos heq,heq.1,heq.2,if_pos rfl]
  · rw [if_neg heq,if_neg]
    intro hhash
    obtain ⟨htarget,hsource,hexpiration⟩ := hfree.fundsHash_inj hhash
    exact heq ⟨hsource,ext hexpiration htarget⟩

theorem liabilitySet_put (hfree : cfg.CollisionFree) (ho : g.Orderly cfg) (a : H) (k : Epoch × H)
    (amount : Amount) :
    LiabilitySet cfg a k (some ((g.liability cfg a k).getD 0 + amount)) g
      (g.putLiability cfg ⟨k.2,a,amount,k.1,false⟩) := by
  refine ⟨g.onlyLiabilities_putLiability cfg _,(ho.putPrimary hfree rfl).2,?_⟩
  unfold putLiability
  have hhash : Liability.hash cfg ⟨k.2,a,amount,k.1,false⟩ = fundsHash cfg k.2 a k.1 := rfl
  cases hexisting : g.masterLiabilities.lookup (fundsHash cfg k.2 a k.1) with
  | none =>
    have hamount : g.liability cfg a k = none := by
      unfold liability
      rw [hexisting]
      rfl
    rw [hhash,hexisting,hamount]
    intro c k'
    rw [liability_of_lookup hfree (fun h => Table.lookup_insert_ite ..)]
    simp
  | some existing =>
    have hamount : g.liability cfg a k = some existing.amount := by
      unfold liability
      rw [hexisting]
      rfl
    rw [hhash,hexisting,hamount]
    intro c k'
    rw [liability_of_lookup hfree (fun h => Table.lookup_insert_ite ..)]
    rfl

end GovernanceStore

namespace LiabilityManager

variable {E : Halt → Prop} {g : GovernanceStore H} {a : H} {k : Epoch × H}
  (hfree : cfg.CollisionFree) (ho : g.Orderly cfg)
include hfree ho

theorem wp_setLiability (hsome : g.liability cfg a k ≠ none) (amount : Amount) :
    (updateLiabilityAmount (fundsHash cfg k.2 a k.1) amount).wp E
      (fun _ => GovernanceStore.LiabilitySet cfg a k (some amount) g) g := by
  refine wp_updateLiabilityAmount (fun hnone => ?_) fun l hl => ?_
  · exact absurd (by unfold GovernanceStore.liability; rw [hnone]; rfl) hsome
  · have hsec := ho.not_secondary_of_fundsHash hfree hl
    refine ⟨rfl,(ho.setAmount hl hsec amount).2,fun c k' => ?_⟩
    rw [GovernanceStore.liability_of_lookup hfree (fun h => Table.lookup_insert_ite ..)]
    rfl

/-- A liability that exists is deleted without a halt. -/
theorem wp_dropLiability (hsome : g.liability cfg a k ≠ none) :
    (deleteLiability (fundsHash cfg k.2 a k.1)).wp E
      (fun _ => GovernanceStore.LiabilitySet cfg a k none g) g := by
  refine wp_deleteLiability (fun hnone => ?_) (fun l hl hunlisted => ?_) fun l hl => ?_
  · exact absurd (by unfold GovernanceStore.liability; rw [hnone]; rfl) hsome
  · exact absurd (ho.listed _ _ hl) hunlisted
  · have hsec := ho.not_secondary_of_fundsHash hfree hl
    refine ⟨rfl,(ho.deletePrimary hl hsec).2,fun c k' => ?_⟩
    rw [GovernanceStore.liability_of_lookup hfree (fun h => Table.lookup_erase_ite ..)]
    rfl

theorem samePrimary_createSecondaryLiability (hE : E .other) {target : H} {amount : Amount}
    {expiration epoch : Epoch} {info : AccountInfo H} :
    (createSecondaryLiability cfg target a amount expiration info epoch).wp E
      (fun _ => GovernanceStore.SamePrimary cfg g) g := by
  have honly := onlyLiabilities_createSecondaryLiability (E := anyHalt) cfg trivial trivial target
    a amount expiration info epoch g
  refine ((wp_createSecondaryLiability_cases ho (.inr hE)).and honly).imp fun r g' h => ?_
  obtain ⟨⟨g1,⟨hpruned,-⟩,hcases⟩,honly,-⟩ := h
  have hpruned1 : ∀ c k,g1.liability cfg c k = g.liability cfg c k := by
    intro c k
    unfold GovernanceStore.liability
    cases hl : g.masterLiabilities.lookup (fundsHash cfg k.2 c k.1) with
    | none =>
      cases hl1 : g1.masterLiabilities.lookup (fundsHash cfg k.2 c k.1) with
      | none => rfl
      | some l => exact absurd (hl.symm.trans (hpruned.shrinks _ l hl1)) (some_ne_none l).symm
    | some l => rw [hpruned.kept _ l hl (.inl (ho.not_secondary_of_fundsHash hfree hl))]
  obtain ⟨-,-,rfl⟩ | ⟨-,-,-,rfl⟩ := hcases
  · exact ⟨honly,hpruned.orderly,hpruned1⟩
  · refine ⟨honly,hpruned.orderly.putSecondary hfree rfl,fun c k => ?_⟩
    rw [← hpruned1]
    unfold GovernanceStore.liability
    obtain ⟨sum,hlookup⟩ := GovernanceStore.lookup_putLiability hfree hpruned.orderly.keyed
      ⟨target,a,amount,expiration,true⟩
    rw [GovernanceStore.lookup_putSecondary,hlookup,if_neg]
    intro hhash
    have hsec := (hfree.same (l := ⟨k.2,c,0,k.1,false⟩) hhash).2.2.2
    cases hsec

end LiabilityManager

variable {t : ThawingFunds H}

namespace GovernanceStore

/-- The funds of an account and what backs them; liabilities under the pending keys still get their
amount, and those of other accounts are those of `g0`. -/
structure Backed (cfg : Config H) (g0 : GovernanceStore H) (a : H)
    (st : Option (StakedFunds H)) (ts : List (ThawingFunds H)) (ks : List (Epoch × H))
    (g : GovernanceStore H) : Prop where
  holds : g0.Holds a st ts g
  orderly : g.Orderly cfg
  others : ∀ c,c ≠ a → ∀ k,g.liability cfg c k = g0.liability cfg c k
  distinct : Distinct ts
  thawing : ∀ t ∈ ts,t.key ∉ ks → g.liability cfg a t.key = some t.amount
  pending : ∀ k ∈ ks,g.liability cfg a k ≠ none
  staked : ∀ f ∈ st,g.liability cfg a (0,f.target) = some f.amount
  apart : ∀ f ∈ st,(0,f.target) ∉ ts.map key ∧ (0,f.target) ∉ ks

namespace Backed

variable {g0 g g' : GovernanceStore H} {a : H} {st : Option (StakedFunds H)}
  {ts : List (ThawingFunds H)} {ks : List (Epoch × H)}

theorem of_samePrimary (h : g0.Backed cfg a st ts ks g) (hsame : g.SamePrimary cfg g') :
    g0.Backed cfg a st ts ks g' where
  holds := h.holds.liabilities hsame.only
  orderly := hsame.orderly
  others c hc k := (hsame.liability c k).trans (h.others c hc k)
  distinct := h.distinct
  thawing t ht hkey := (hsame.liability ..).trans (h.thawing t ht hkey)
  pending k hk := by
    rw [hsame.liability]
    exact h.pending k hk
  staked f hf := (hsame.liability ..).trans (h.staked f hf)
  apart := h.apart

theorem liability_power (hp : g.OnlyPower g') (c : H) (k : Epoch × H) :
    g'.liability cfg c k = g.liability cfg c k := by
  rw [hp]
  rfl

theorem power (h : g0.Backed cfg a st ts ks g) (hp : g.OnlyPower g') :
    g0.Backed cfg a st ts ks g' where
  holds := h.holds.power hp
  orderly := h.orderly.power hp
  others c hc k := (liability_power hp c k).trans (h.others c hc k)
  distinct := h.distinct
  thawing t ht hkey := (liability_power hp a t.key).trans (h.thawing t ht hkey)
  pending k hk := by
    rw [liability_power hp]
    exact h.pending k hk
  staked f hf := (liability_power hp a _).trans (h.staked f hf)
  apart := h.apart

theorem set_other {k : Epoch × H} {v : Option Amount} (h : g0.Backed cfg a st ts ks g)
    (hset : LiabilitySet cfg a k v g g') (hts : ∀ t ∈ ts,t.key = k → t.key ∈ ks)
    (hpending : k ∈ ks → v ≠ none) (hst : ∀ f ∈ st,(0,f.target) ≠ k) :
    g0.Backed cfg a st ts ks g' where
  holds := h.holds.liabilities hset.only
  orderly := hset.orderly
  others c hc k' := by
    rw [hset.liability,if_neg fun heq => hc heq.1]
    exact h.others c hc k'
  distinct := h.distinct
  thawing t ht hkey := by
    rw [hset.liability,if_neg fun heq => hkey (hts t ht heq.2)]
    exact h.thawing t ht hkey
  pending k' hk' := by
    rw [hset.liability]
    split
    · next heq => exact hpending (heq.2 ▸ hk')
    · exact h.pending k' hk'
  staked f hf := by
    rw [hset.liability,if_neg fun heq => hst f hf heq.2]
    exact h.staked f hf
  apart := h.apart

theorem put_zero (hfree : cfg.CollisionFree) (h : g0.Backed cfg a st ts ks g) (k : Epoch × H) :
    g0.Backed cfg a st ts ks (g.putLiability cfg ⟨k.2,a,0,k.1,false⟩) ∧
      (g.putLiability cfg ⟨k.2,a,0,k.1,false⟩).liability cfg a k ≠ none ∧
      ∀ k',g.liability cfg a k' ≠ none →
        (g.putLiability cfg ⟨k.2,a,0,k.1,false⟩).liability cfg a k' ≠ none := by
  have hset := liabilitySet_put hfree h.orderly a k 0
  have hsame : ∀ c k' amount,g.liability cfg c k' = some amount →
      (g.putLiability cfg ⟨k.2,a,0,k.1,false⟩).liability cfg c k' = some amount := by
    intro c k' amount hamount
    rw [hset.liability]
    split
    · next heq =>
      rw [heq.1,heq.2] at hamount
      rw [hamount,getD_some,add_zero]
    · exact hamount
  refine ⟨⟨h.holds.liabilities hset.only,hset.orderly,fun c hc k' => ?_,h.distinct,
    fun t ht hkey => hsame _ _ _ (h.thawing t ht hkey),fun k' hk' => ?_,
    fun f hf => hsame _ _ _ (h.staked f hf),h.apart⟩,?_,fun k' hk' => ?_⟩
  · rw [hset.liability,if_neg fun heq => hc heq.1]
    exact h.others c hc k'
  · obtain ⟨amount,hamount⟩ := ne_none_iff_exists'.mp (h.pending k' hk')
    rw [hsame _ _ _ hamount]
    exact some_ne_none _
  · rw [hset.liability,if_pos ⟨rfl,rfl⟩]
    exact some_ne_none _
  · obtain ⟨amount,hamount⟩ := ne_none_iff_exists'.mp hk'
    rw [hsame _ _ _ hamount]
    exact some_ne_none _

variable (h : g0.Backed cfg a st ts ks g)
include h

/-- A key whose liability exists may be treated as one whose amount is still to be set. -/
theorem addPending {k : Epoch × H}
    (hsome : g.liability cfg a k ≠ none) (hst : ∀ f ∈ st,(0,f.target) ≠ k) :
    g0.Backed cfg a st ts (k::ks) g where
  holds := h.holds
  orderly := h.orderly
  others := h.others
  distinct := h.distinct
  thawing t ht hkey := h.thawing t ht fun hmem => hkey (.tail _ hmem)
  pending k' hk' := by
    rcases mem_cons.mp hk' with rfl | hk'
    · exact hsome
    · exact h.pending k' hk'
  staked := h.staked
  apart f hf := ⟨(h.apart f hf).1,fun hmem => by
    rcases mem_cons.mp hmem with heq | hmem
    · exact hst f hf heq
    · exact (h.apart f hf).2 hmem⟩

theorem dropStake : g0.Backed cfg a none ts ks { g with stakes := g.stakes.erase a } where
  holds := h.holds.dropStake
  orderly := h.orderly.dropStake a
  others := h.others
  distinct := h.distinct
  thawing := h.thawing
  pending := h.pending
  staked := by simp
  apart := by simp

theorem sublistThawing {ts' : List (ThawingFunds H)}
    (hsub : ts'.Sublist ts) {table : Table H (List (ThawingFunds H))}
    (htable : ∀ c,table.duplicates c = if c = a then ts' else g.thawing.duplicates c) :
    g0.Backed cfg a st ts' ks { g with thawing := table } where
  holds := h.holds.setThawing htable
  orderly := h.orderly.setThawing htable fun u hu =>
    h.orderly.thawing a u (h.holds.duplicates_self ▸ hsub.subset hu)
  others := h.others
  distinct := h.distinct.sublist (hsub.map _)
  thawing u hu := h.thawing u (hsub.subset hu)
  pending := h.pending
  staked := h.staked
  apart f hf := ⟨fun hmem => (h.apart f hf).1 ((hsub.map key).subset hmem),(h.apart f hf).2⟩

theorem eraseThawing (t : ThawingFunds H) : g0.Backed cfg a st (ts.erase t) ks
      { g with thawing := g.thawing.eraseDuplicate a t } :=
  h.sublistThawing erase_sublist fun c => by
    rw [Table.duplicates_eraseDuplicate,h.holds.duplicates_self]

theorem pending_congr {ks' : List (Epoch × H)}
    (hiff : ∀ k,k ∈ ks' ↔ k ∈ ks) : g0.Backed cfg a st ts ks' g where
  holds := h.holds
  orderly := h.orderly
  others := h.others
  distinct := h.distinct
  thawing t ht hkey := h.thawing t ht fun hmem => hkey ((hiff _).mpr hmem)
  pending k hk := h.pending k ((hiff k).mp hk)
  staked := h.staked
  apart f hf := ⟨(h.apart f hf).1,fun hmem => (h.apart f hf).2 ((hiff _).mp hmem)⟩

/-- A pending liability that no record claims is left to itself. -/
theorem dropPending (hks : ∀ k ∈ ks,k ∉ ts.map key) : g0.Backed cfg a st ts [] g where
  holds := h.holds
  orderly := h.orderly
  others := h.others
  distinct := h.distinct
  thawing t ht _ := h.thawing t ht fun hmem => hks _ hmem (mem_map_of_mem ht)
  pending := by simp
  staked := h.staked
  apart f hf := ⟨(h.apart f hf).1,not_mem_nil⟩

theorem redate {g1 g2 : GovernanceStore H} {k : Epoch × H} {v : Amount} (ht : t ∈ ts) (hks : t.key ∉ ks)
    (h1 : LiabilitySet cfg a t.key none g g1) (h2 : LiabilitySet cfg a k (some v) g1 g2)
    (hst : ∀ f ∈ st,(0,f.target) ≠ k) :
    g0.Backed cfg a st (ts.erase t) (k::ks)
      { g2 with thawing := g2.thawing.eraseDuplicate a t } := by
  have hholds := (h.holds.liabilities h1.only).liabilities h2.only
  have hother : ∀ c k',(c ≠ a ∨ k' ≠ k) → (c ≠ a ∨ k' ≠ t.key) →
      g2.liability cfg c k' = g.liability cfg c k' := by
    intro c k' hk ht
    rw [h2.liability,if_neg fun heq => hk.elim (· heq.1) (· heq.2),h1.liability,
      if_neg fun heq => ht.elim (· heq.1) (· heq.2)]
  have hapart : ∀ f ∈ st,(0,f.target) ≠ t.key := fun f hf heq =>
    (h.apart f hf).1 (heq ▸ mem_map_of_mem ht)
  refine ⟨hholds.eraseThawing t,?_,fun c hc k' => ?_,h.distinct.erase t,fun u hu hkey => ?_,
    fun k' hk' => ?_,fun f hf => ?_,fun f hf => ⟨fun hmem => ?_,fun hmem => ?_⟩⟩
  · refine h2.orderly.setThawing (fun _ => Table.duplicates_eraseDuplicate ..) fun u hu => ?_
    exact h2.orderly.thawing a u (List.mem_of_mem_erase hu)
  · exact (hother c k' (.inl hc) (.inl hc)).trans (h.others c hc k')
  · have hne : u.key ≠ t.key := fun heq =>
      h.distinct.key_notMem_erase ht (heq ▸ mem_map_of_mem hu)
    refine (hother a u.key (.inr fun heq => hkey (heq ▸ mem_cons_self)) (.inr hne)).trans ?_
    exact h.thawing u (List.mem_of_mem_erase hu) fun hmem => hkey (.tail _ hmem)
  · show g2.liability cfg a k' ≠ none
    by_cases heq : k' = k
    · rw [heq,h2.liability,if_pos ⟨rfl,rfl⟩]
      exact some_ne_none v
    · have hk' := (mem_cons.mp hk').resolve_left heq
      rw [hother a k' (.inr heq) (.inr fun heq => hks (heq ▸ hk'))]
      exact h.pending k' hk'
  · exact (hother a _ (.inr (hst f hf)) (.inr (hapart f hf))).trans (h.staked f hf)
  · exact (h.apart f hf).1 ((erase_sublist.map key).subset hmem)
  · rcases mem_cons.mp hmem with heq | hmem
    · exact hst f hf heq
    · exact (h.apart f hf).2 hmem

end Backed
end GovernanceStore

theorem ThawingFunds.mem_key_deposit {ts : List (ThawingFunds H)}
    (hs : Searchable t.key ts) {k : Epoch × H} (hk : k ∈ (deposit cfg t ts).map key) :
    k = t.key ∨ k ∈ ts.map key := by
  obtain ⟨i,u,hu,-,heq⟩ | ⟨-,heq⟩ := deposit_cases cfg hs
  · have hkeys : (ts.set i { u with amount := u.amount + t.amount }).map key = ts.map key :=
      map_set_eq hu rfl
    rw [heq,hkeys] at hk
    exact .inr hk
  · rw [heq,((List.perm_orderedInsert _ _ _).map key).mem_iff,List.map_cons] at hk
    exact mem_cons.mp hk

namespace StakingManager

abbrev notLiability : Halt → Prop := fun e => e ≠ .liability

variable {g0 g : GovernanceStore H} {a : H} {st : Option (StakedFunds H)}
  {ts : List (ThawingFunds H)} {ks : List (Epoch × H)} {E : Halt → Prop} {epoch : Epoch}
  {info : AccountInfo H} (hfree : cfg.CollisionFree)
include hfree

theorem backed_storeStaked (h : g0.Backed cfg a st ts ks g) {f : StakedFunds H}
    (hf : f.Formed cfg a) (hsome : g.liability cfg a (0,f.target) ≠ none)
    (hapart : (0,f.target) ∉ ts.map key ∧ (0,f.target) ∉ ks) :
    (storeStaked f a).wp E (fun _ g' => g0.Backed cfg a (some f) ts ks g' ∧
      ∀ k,k ≠ (0,f.target) → g'.liability cfg a k = g.liability cfg a k) g := by
  unfold storeStaked
  rw [wp_bind,wp_modify,hf]
  have ho := h.orderly.putStake hf
  refine (wp_setLiability hfree ho (k := (0,f.target)) hsome f.amount).imp fun _ g' hset => ?_
  have hother : ∀ k,k ≠ (0,f.target) → g'.liability cfg a k = g.liability cfg a k := by
    intro k hk
    rw [hset.liability,if_neg fun heq => hk heq.2]
    rfl
  refine ⟨⟨(h.holds.putStake f).liabilities hset.only,hset.orderly,fun c hc k => ?_,h.distinct,
    fun t ht hkey => ?_,fun k hk => ?_,?_,?_⟩,hother⟩
  · rw [hset.liability,if_neg fun heq => hc heq.1]
    exact h.others c hc k
  · rw [hother _ fun heq => hapart.1 (heq ▸ mem_map_of_mem ht)]
    exact h.thawing t ht hkey
  · rw [hother _ fun heq => hapart.2 (heq ▸ hk)]
    exact h.pending k hk
  · rintro f' ⟨⟩
    rw [hset.liability,if_pos ⟨rfl,rfl⟩]
  · rintro f' ⟨⟩
    exact hapart

theorem backed_updateStaked {f : StakedFunds H} (h : g0.Backed cfg a (some f) ts ks g)
    (newAmount : Amount) :
    (updateStaked f a newAmount).wp E (fun _ g' => g0.Backed cfg a
        (if 0 < newAmount then some { f with amount := newAmount } else none) ts ks g' ∧
      ∀ k,k ≠ (0,f.target) → g'.liability cfg a k = g.liability cfg a k) g := by
  have hf : f.Formed cfg a := h.orderly.staked a f h.holds.lookup_self
  have hsome : g.liability cfg a (0,f.target) ≠ none := by
    rw [h.staked f rfl]
    exact some_ne_none _
  have hapart := h.apart f rfl
  refine wp_ite (fun hpos => ?_) fun hzero => ?_
  · rw [if_pos hpos]
    exact backed_storeStaked hfree h (hf.withAmount newAmount) hsome hapart
  · rw [if_neg hzero,wp_bind,wp_modify,hf]
    refine (wp_dropLiability hfree h.dropStake.orderly (k := (0,f.target)) hsome).imp
      fun _ g' hset => ⟨h.dropStake.set_other hset ?_ (fun hk => absurd hk hapart.2) (by simp),?_⟩
    · exact fun t ht heq => absurd (heq ▸ mem_map_of_mem ht) hapart.1
    · intro k hk
      rw [hset.liability,if_neg fun heq => hk heq.2]
      rfl

omit hfree in
/-- Storing thawing funds writes the consolidated list and sets the amount of their liability. -/
theorem run_storeThawing (hts : g.thawing.duplicates a = ts)
    (hformed : ∀ u ∈ ts,u.Formed cfg a) (ht : t.Formed cfg a) (hdistinct : Distinct ts)
    (hs : Searchable t.key ts) :
    ∃ table amount,(∀ c,Table.duplicates table c =
        if c = a then deposit cfg t ts else g.thawing.duplicates c) ∧
      (∀ u ∈ deposit cfg t ts,u.Formed cfg a ∧
        (u.key = t.key ∧ u.amount = amount ∨ u.key ≠ t.key ∧ u ∈ ts)) ∧
      (storeThawing cfg t a).run g =
        (updateLiabilityAmount (fundsHash cfg t.key.2 a t.key.1) amount).run
          { g with thawing := table } := by
  cases hfind : findConsolidated t ts with
  | some i =>
    obtain ⟨u,hu,hkey⟩ := findConsolidated_some hfind
    have hdeposit : deposit cfg t ts = ts.set i { u with amount := u.amount + t.amount } := by
      simp only [deposit,hfind,bind_some,hu,map_some]
    have huf := hformed u (List.mem_of_getElem? hu)
    have hhash : u.liabilityHash = fundsHash cfg t.key.2 a t.key.1 := by
      rw [← hkey]
      exact huf
    refine ⟨g.thawing.insert a (ts.set i { u with amount := u.amount + t.amount }),
      u.amount + t.amount,fun c => ?_,fun v hv => ?_,?_⟩
    · rw [hdeposit]
      exact Table.duplicates_insert ..
    · rw [hdeposit] at hv
      rcases hdistinct.mem_set hu hv with rfl | ⟨hne,hv⟩
      · exact ⟨huf.withAmount _,.inl ⟨hkey,rfl⟩⟩
      · exact ⟨hformed v hv,.inr ⟨hkey ▸ hne,hv⟩⟩
    · have hrun : (storeThawing cfg t a).run g = (updateLiabilityAmount u.liabilityHash
          (u.amount + t.amount)).run { g with thawing :=
            (g.thawing.insert a (ts.set i { u with amount := u.amount + t.amount })) } := by
        unfold storeThawing
        simp only [StateT.run_bind,StateT.run_get,pure_bind,hts,hfind,bind_some,hu,map_some]
        have heq : u.liabilityHash = t.liabilityHash := hhash.trans ht.symm
        rw [if_pos heq]
        rfl
      rw [hrun,hhash]
  | none =>
    have hnotMem := findConsolidated_none hs hfind
    obtain ⟨table,htable,hrun⟩ : ∃ table,(∀ c,Table.duplicates table c =
          if c = a then deposit cfg t ts else g.thawing.duplicates c) ∧
        (storeThawing cfg t a).run g =
          (updateLiabilityAmount t.liabilityHash t.amount).run { g with thawing := table } := by
      unfold storeThawing deposit
      simp only [StateT.run_bind,StateT.run_get,pure_bind,hts,hfind,bind_none]
      refine ⟨_,fun c => ?_,rfl⟩
      rw [Table.duplicates_putDuplicate,hts]
    rw [ht] at hrun
    refine ⟨table,t.amount,htable,fun u hu => ?_,hrun⟩
    obtain ⟨i,v,hv,hkey,-⟩ | ⟨-,heq⟩ := deposit_cases cfg hs
    · exact absurd (hkey ▸ mem_map_of_mem (List.mem_of_getElem? hv)) hnotMem
    · rw [heq] at hu
      rcases (List.mem_orderedInsert _).mp hu with rfl | hu
      · exact ⟨ht,.inl ⟨rfl,rfl⟩⟩
      · exact ⟨hformed u hu,.inr ⟨fun heq => hnotMem (heq ▸ mem_map_of_mem hu),hu⟩⟩

theorem backed_storeThawing (h : g0.Backed cfg a st ts (t.key::ks) g)
    (ht : t.Formed cfg a) (hnotMem : t.key ∉ ks) (hs : Searchable t.key ts) :
    (storeThawing cfg t a).wp E (fun _ g' => g0.Backed cfg a st (deposit cfg t ts) ks g' ∧
      ∀ k,k ≠ t.key → g'.liability cfg a k = g.liability cfg a k) g := by
  have hst : ∀ f ∈ st,(0,f.target) ≠ t.key := fun f hf heq =>
    (h.apart f hf).2 (heq ▸ mem_cons_self)
  have hts := h.orderly.thawing a
  rw [h.holds.duplicates_self] at hts
  obtain ⟨table,amount,htable,hmem,hrun⟩ :=
    run_storeThawing h.holds.duplicates_self hts ht h.distinct hs
  refine wp_of_run_eq hrun ?_
  have ho := h.orderly.setThawing htable fun u hu => (hmem u hu).1
  refine (wp_setLiability hfree ho (h.pending t.key mem_cons_self) amount).imp
    fun _ g' hset => ?_
  have hother : ∀ k,k ≠ t.key → g'.liability cfg a k = g.liability cfg a k := by
    intro k hk
    rw [hset.liability,if_neg fun heq => hk heq.2]
    rfl
  refine ⟨⟨(h.holds.setThawing htable).liabilities hset.only,hset.orderly,fun c hc k => ?_,
    h.distinct.deposit cfg hs,fun u hu hkey => ?_,fun k hk => ?_,fun f hf => ?_,fun f hf => ?_⟩,
    hother⟩
  · rw [hset.liability,if_neg fun heq => hc heq.1]
    exact h.others c hc k
  · obtain ⟨heq,hamount⟩ | ⟨hne,hu⟩ := (hmem u hu).2
    · rw [heq,hset.liability,if_pos ⟨rfl,rfl⟩,hamount]
    · rw [hother _ hne]
      refine h.thawing u hu fun hpending => ?_
      rcases mem_cons.mp hpending with heq | hpending
      · exact hne heq
      · exact hkey hpending
  · rw [hother k fun heq => hnotMem (heq ▸ hk)]
    exact h.pending k (.tail _ hk)
  · rw [hother _ (hst f hf)]
    exact h.staked f hf
  · refine ⟨fun hmem => ?_,fun hmem => (h.apart f hf).2 (.tail _ hmem)⟩
    exact (mem_key_deposit hs hmem).elim (hst f hf) (h.apart f hf).1

theorem backed_updateThawing (h : g0.Backed cfg a st ts ks g) (ht : t ∈ ts)
    (hks : t.key ∉ ks) (newAmount : Amount) :
    (updateThawing cfg t a newAmount).wp E (fun _ => g0.Backed cfg a st
      (if 0 < newAmount then deposit cfg { t with amount := newAmount } (ts.erase t)
        else ts.erase t) ks) g := by
  have hform : t.Formed cfg a := h.orderly.thawing a t (h.holds.duplicates_self ▸ ht)
  have hsome : g.liability cfg a t.key ≠ none := by
    rw [h.thawing t ht hks]
    exact some_ne_none _
  have hst : ∀ f ∈ st,(0,f.target) ≠ t.key := fun f hf heq =>
    (h.apart f hf).1 (heq ▸ mem_map_of_mem ht)
  have hnotMem := h.distinct.key_notMem_erase ht
  have herase := h.eraseThawing t
  unfold updateThawing
  rw [wp_bind,wp_modify]
  refine wp_ite (fun hpos => ?_) fun hzero => ?_
  · rw [if_pos hpos]
    exact (backed_storeThawing hfree (t := { t with amount := newAmount })
      (herase.addPending hsome hst) (hform.withAmount newAmount) hks (.of_notMem hnotMem)).imp
        fun _ _ h => h.1
  · rw [if_neg hzero,hform]
    refine (wp_dropLiability hfree herase.orderly (k := t.key) hsome).imp fun _ g' hset => ?_
    refine herase.set_other hset (fun u hu heq => ?_) (fun hk => absurd hk hks) hst
    exact absurd (heq ▸ mem_map_of_mem hu) hnotMem

/-- While a stake is set, no thawing funds compete with it for the liability of its target. -/
def backedStaking (cfg : Config H) (g0 : GovernanceStore H) (a target : H) : Acting H :=
  fun _ st ts ks _ g => g0.Backed cfg a st ts ks g ∧ ks.Nodup ∧ (0,target) ∉ ts.map key

theorem backedStaking_laws {target : H} (hexpires : epoch + thawingPeriod ≠ 0) :
    Acting.StakeLaws cfg g0 a notLiability True True epoch target
      (backedStaking cfg g0 a target) where
  other := by simp
  wellFormed _ := fun h => h.1.1.orderly.formed h.2
  distinct _ := fun h => h.1.distinct
  storeThawing := by
    rintro info st ts ks n g t ⟨⟨h,hks,hts⟩,-⟩ hexp hf hs
    obtain ⟨hnotMem,hks⟩ := nodup_cons.mp hks
    refine (backed_storeThawing hfree h (hf trivial) hnotMem (hs trivial)).imp
      fun _ g' h' => ⟨h'.1,hks,fun hmem => ?_⟩
    exact (mem_key_deposit (hs trivial) hmem).elim
      (fun heq => hexpires (hexp.symm.trans (congrArg fst heq).symm)) hts
  votingPower := by simp
  balance := by simp
  power h hp := ⟨h.1.1.power hp,h.1.2⟩
  spend _ _ h _ _ := h
  createStaked := by
    rintro info st ts n g ⟨⟨h,-,hts⟩,-⟩ hne
    obtain ⟨hput,hsome,-⟩ := h.put_zero hfree (0,target)
    exact ⟨hput.addPending hsome fun f hf heq => hne f hf (congrArg snd heq),by simp,hts⟩
  createThawing := by
    rintro info f ts ks n g ⟨⟨h,hks,hts⟩,-⟩ hsub
    obtain ⟨hput,hsome,-⟩ := h.put_zero hfree (epoch + thawingPeriod,f.target)
    refine ⟨hput.addPending hsome fun f _ heq => hexpires (congrArg fst heq).symm,
      nodup_cons.mpr ⟨fun hmem => ?_,hks⟩,hts⟩
    exact hexpires (congrArg fst (mem_singleton.mp (hsub hmem)))
  secondary h _ _ _ := (samePrimary_createSecondaryLiability hfree h.1.1.orderly (by simp)).imp
    fun _ _ hsame => ⟨h.1.1.of_samePrimary hsame,h.1.2⟩
  updateStaked h _ := (backed_updateStaked hfree h.1.1 _).imp fun _ _ h' => ⟨h'.1,h.1.2⟩
  storeStaked := by
    rintro info st ts ks n g f ⟨⟨h,-,hts⟩,-⟩ htarget hf - - - hks
    subst htarget
    have hsome : g.liability cfg a (0,f.target) ≠ none := by
      rcases hks with rfl | ⟨-,f',hf',heq⟩
      · exact h.pending _ (by simp)
      · rw [← heq,h.staked f' hf']
        exact some_ne_none _
    have hdone : g0.Backed cfg a st ts [] g := h.dropPending fun k hk => by
      rcases hks with rfl | ⟨rfl,-⟩
      · rw [mem_singleton.mp hk]
        exact hts
      · exact absurd hk not_mem_nil
    exact (backed_storeStaked hfree hdone (hf trivial) hsome ⟨hts,not_mem_nil⟩).imp
      fun _ _ h' => ⟨h'.1,nodup_nil,hts⟩
  dropStake h _ := ⟨h.1.1.dropStake,h.1.2⟩
  updateThawing := by
    rintro info st ts ks n g t x ⟨⟨h,hks,hts⟩,-⟩ hsub - ht -
    have ht := ht trivial
    have hkey : t.key ∉ ks := fun hmem =>
      hts (mem_singleton.mp (hsub hmem) ▸ mem_map_of_mem ht)
    refine (backed_updateThawing hfree h ht hkey _).imp fun _ g' h' => ⟨h',hks,fun hmem => hts ?_⟩
    have herase : (ts.erase t).map key ⊆ ts.map key := (erase_sublist.map key).subset
    split at hmem
    · have hs : Searchable t.key (ts.erase t) := .of_notMem (h.distinct.key_notMem_erase ht)
      rcases mem_key_deposit (t := { t with amount := t.amount - x }) hs hmem with heq | hmem
      · exact mem_map.mpr ⟨t,ht,heq.symm⟩
      · exact herase hmem
    · exact herase hmem
  empty h _ := h.1

theorem backed_stake {amount : Amount} {target : H} (h : g0.Backed cfg a st ts [] g)
    (hs : ∀ f ∈ st,Searchable (epoch + thawingPeriod,f.target) ts)
    (hexpires : epoch + thawingPeriod ≠ 0) (hts : (0,target) ∉ ts.map key) :
    (stake cfg a info amount target epoch).wp notLiability
      (fun _ g' => ∃ st' ts',g0.Backed cfg a st' ts' [] g') g := by
  refine (Acting.on_stake (backedStaking_laws hfree hexpires) ⟨⟨h,nodup_nil,hts⟩,h.holds⟩
    fun _ => hs).imp fun info' g' h' => ?_
  obtain ⟨st',ts',ks,⟨⟨h',-,hts'⟩,-⟩,hks,-⟩ := h'
  refine ⟨st',ts',h'.dropPending fun k hk => ?_⟩
  rcases hks with rfl | ⟨rfl,-⟩
  · exact absurd hk not_mem_nil
  · rw [mem_singleton.mp hk]
    exact hts'

omit hfree in
theorem backed_pruneThawing (h : g0.Backed cfg a st ts [] g) :
    (pruneThawing a info epoch).wp notLiability
      (fun _ g' => ∃ ts',g0.Backed cfg a st ts' [] g') g := by
  refine wp_ite (fun _ => ⟨ts,h⟩) fun _ => ?_
  simp only [wp_bind,wp_get,wp_set]
  refine (AccountInfo.wp_setAvailableBalance (by simp) _ _ _ (.inr (by simp)) _).imp
    fun info' g' h' => ?_
  rw [h.holds.duplicates_self] at h'
  exact ⟨_,(h.sublistThawing List.filter_sublist fun c => Table.duplicates_insert ..).power h'.1⟩

/-- While expirations change, the stake stays. -/
def backedRedating (cfg : Config H) (g0 : GovernanceStore H) (a : H)
    (st0 : Option (StakedFunds H)) : Acting H :=
  fun _ st ts ks _ g => g0.Backed cfg a st ts ks g ∧ ks.Nodup ∧ st = st0

theorem backedRedating_laws {expiration : Epoch} :
    Acting.RedateLaws cfg g0 a notLiability True True expiration
      (fun t => ∀ f ∈ st,(0,f.target) ≠ (expiration,t.target)) (backedRedating cfg g0 a st) where
  other := by simp
  wellFormed _ := fun h => h.1.1.orderly.formed h.2
  distinct _ := fun h => h.1.distinct
  storeThawing := by
    rintro info st ts ks n g t ⟨⟨h,hks,hst⟩,-⟩ - hf hs
    obtain ⟨hnotMem,hks⟩ := nodup_cons.mp hks
    exact (backed_storeThawing hfree h (hf trivial) hnotMem (hs trivial)).imp
      fun _ g' h' => ⟨h'.1,hks,hst⟩
  perm h hp := ⟨h.1.pending_congr fun _ => hp.symm.mem_iff,hp.nodup_iff.mp h.2.1,h.2.2⟩
  redate := by
    rintro info _ ts ks n g t ⟨⟨h,hks,rfl⟩,-⟩ hst hf ht
    obtain ⟨hmem,htarget⟩ := ht trivial
    have hkey : t.key ∉ ks := fun hmem => htarget (mem_map_of_mem (f := snd) hmem)
    have hsome : g.liability cfg a t.key ≠ none := by
      rw [h.thawing t hmem hkey]
      exact some_ne_none _
    rw [hf trivial]
    refine (wp_dropLiability hfree h.orderly (k := t.key) hsome).imp fun _ g1 h1 => ?_
    have h2 := GovernanceStore.liabilitySet_put hfree h1.orderly a (expiration,t.target) t.amount
    refine ⟨h.redate hmem hkey h1 h2 hst,nodup_cons.mpr ⟨fun hmem => ?_,hks⟩,rfl⟩
    exact htarget (mem_map_of_mem (f := snd) hmem)

end StakingManager

namespace GovernanceStore

structure Settled (cfg : Config H) (g : GovernanceStore H) : Prop where
  orderly : g.Orderly cfg
  distinct : ∀ a,Distinct (g.thawing.duplicates a)
  thawing : ∀ a,∀ t ∈ g.thawing.duplicates a,g.liability cfg a t.key = some t.amount
  staked : ∀ a,∀ f ∈ g.stakes.lookup a,g.liability cfg a (0,f.target) = some f.amount
  apart : ∀ a,∀ f ∈ g.stakes.lookup a,(0,f.target) ∉ (g.thawing.duplicates a).map key

variable {g0 g : GovernanceStore H} {a : H} {st : Option (StakedFunds H)}
  {ts : List (ThawingFunds H)}

theorem Settled.backed (h : g.Settled cfg) (a : H) :
    g.Backed cfg a (g.stakes.lookup a) (g.thawing.duplicates a) [] g where
  holds := .self g a
  orderly := h.orderly
  others _ _ _ := rfl
  distinct := h.distinct a
  thawing t ht _ := h.thawing a t ht
  pending := by simp
  staked := h.staked a
  apart f hf := ⟨h.apart a f hf,not_mem_nil⟩

theorem Backed.settled (h0 : g0.Settled cfg) (h : g0.Backed cfg a st ts [] g) : g.Settled cfg where
  orderly := h.orderly
  distinct c := by
    rw [h.holds.thawing]
    split
    · exact h.distinct
    · exact h0.distinct c
  thawing c t ht := by
    rw [h.holds.thawing] at ht
    split at ht
    · next hc =>
      rw [hc]
      exact h.thawing t ht not_mem_nil
    · next hc =>
      rw [h.others c hc]
      exact h0.thawing c t ht
  staked c f hf := by
    rw [h.holds.staked] at hf
    split at hf
    · next hc =>
      rw [hc]
      exact h.staked f hf
    · next hc =>
      rw [h.others c hc]
      exact h0.staked c f hf
  apart c f hf := by
    rw [h.holds.staked] at hf
    rw [h.holds.thawing]
    split at hf
    · next hc =>
      rw [if_pos hc]
      exact (h.apart f hf).1
    · next hc =>
      rw [if_neg hc]
      exact h0.apart c f hf

end GovernanceStore

inductive FundsRecord (H : Type)
  | staked (account : H) (funds : StakedFunds H)
  | thawing (account : H) (funds : ThawingFunds H)

namespace FundsRecord

def account : FundsRecord H → H
  | staked a _ => a
  | thawing a _ => a

def target : FundsRecord H → H
  | staked _ f => f.target
  | thawing _ t => t.target

def amount : FundsRecord H → Amount
  | staked _ f => f.amount
  | thawing _ t => t.amount

def liabilityHash : FundsRecord H → H
  | staked _ f => f.liabilityHash
  | thawing _ t => t.liabilityHash

/-- The expiration of the liability: that of a stake does not expire. -/
def expiration : FundsRecord H → Epoch
  | staked _ _ => 0
  | thawing _ t => t.expirationEpoch

def StoredIn (g : GovernanceStore H) : FundsRecord H → Prop
  | staked a f => g.stakes.lookup a = some f
  | thawing a t => t ∈ g.thawing.duplicates a

variable {g : GovernanceStore H} {r r' : FundsRecord H}

theorem liabilityHash_eq (ho : g.Orderly cfg) (hr : r.StoredIn g) :
    r.liabilityHash = fundsHash cfg r.target r.account r.expiration := by
  cases r with
  | staked a f => exact ho.staked a f hr
  | thawing a t => exact ho.thawing a t hr

theorem exists_liability (hfree : cfg.CollisionFree) (h : g.Settled cfg) (hr : r.StoredIn g) :
    ∃ l,g.masterLiabilities.lookup r.liabilityHash = some l ∧ l.target = r.target ∧
      l.source = r.account ∧ l.amount = r.amount := by
  have hamount : g.liability cfg r.account (r.expiration,r.target) = some r.amount := by
    cases r with
    | staked a f => exact h.staked a f hr
    | thawing a t => exact h.thawing a t hr
  rw [liabilityHash_eq h.orderly hr]
  obtain ⟨l,hl,hamount⟩ := map_eq_some_iff.mp hamount
  have heq := h.orderly.eq_of_fundsHash hfree hl
  exact ⟨l,hl,congrArg Liability.target heq,congrArg Liability.source heq,hamount⟩

theorem eq_of_liabilityHash (hfree : cfg.CollisionFree) (h : g.Settled cfg) (hr : r.StoredIn g)
    (hr' : r'.StoredIn g) (heq : r.liabilityHash = r'.liabilityHash) : r = r' := by
  have hapart : ∀ a f t,g.stakes.lookup a = some f → t ∈ g.thawing.duplicates a →
      f.target = t.target → t.expirationEpoch ≠ 0 := fun a f t hf ht htarget hexpiration =>
    h.apart a f hf (mem_map.mpr ⟨t,ht,ext hexpiration htarget.symm⟩)
  rw [liabilityHash_eq h.orderly hr,liabilityHash_eq h.orderly hr'] at heq
  obtain ⟨htarget,haccount,hexpiration⟩ := hfree.fundsHash_inj heq
  cases r with
  | staked a f =>
    cases r' with
    | staked a' f' =>
      cases (show a = a' from haccount)
      cases hr.symm.trans hr'
      rfl
    | thawing a' t =>
      cases (show a = a' from haccount)
      exact absurd hexpiration.symm (hapart a f t hr hr' htarget)
  | thawing a t =>
    cases r' with
    | staked a' f =>
      cases (show a = a' from haccount)
      exact absurd hexpiration (hapart a f t hr' hr htarget.symm)
    | thawing a' t' =>
      cases (show a = a' from haccount)
      rw [List.inj_on_of_nodup_map (h.distinct a) hr hr' (ext hexpiration htarget)]

end FundsRecord

/-- A record about to be stored shares its liability with no other: thawing funds get an expiration,
no frozen funds have the target of the new stake, and what is frozen is not self stake of an account
that still has some. -/
def FundsAction.Separate (s : Holdings H) (origin : H) (epoch : Epoch) : FundsAction H → Prop
  | .stake _ target => epoch + thawingPeriod ≠ 0 ∧
    (0,target) ∉ (s.gov.thawing.duplicates origin).map key
  | .markThawingAsFrozen epochCreated => ∀ f ∈ s.gov.stakes.lookup origin,f.target = origin →
    (epochCreated + thawingPeriod,origin) ∉ (s.gov.thawing.duplicates origin).map key
  | _ => True

instance (s : Holdings H) (origin : H) (epoch : Epoch) (action : FundsAction H) :
    Decidable (action.Separate s origin epoch) :=
  match action with
  | .stake _ _ => inferInstanceAs (Decidable (_ ∧ _))
  | .setBalance _ => .isTrue trivial
  | .pruneThawing => .isTrue trivial
  | .markThawingAsFrozen _ => inferInstanceAs (Decidable (∀ f ∈ _,_))
  | .setExpirationOfFrozen _ => .isTrue trivial

def FundsEvent.Separate (e : FundsEvent H) (s : Holdings H) : Prop :=
  e.action.Separate s e.origin e.epoch

instance (e : FundsEvent H) (s : Holdings H) : Decidable (e.Separate s) :=
  inferInstanceAs (Decidable (FundsAction.Separate ..))

/-- Any event leaves the records of an account backed, and misses no liability. -/
theorem FundsEvent.backed_perform (hfree : cfg.CollisionFree) {s : Holdings H} {e : FundsEvent H}
    (hs : s.gov.Settled cfg) (hsearch : e.Searchable s) (hseparate : e.Separate s) :
    (e.perform cfg (s.info e.origin)).wp notLiability
      (fun _ g' => ∃ st ts,s.gov.Backed cfg e.origin st ts [] g') s.gov := by
  have h := hs.backed e.origin
  have hself : (backedRedating cfg s.gov e.origin (s.gov.stakes.lookup e.origin)).On s.gov e.origin
    (s.info e.origin) (s.gov.stakes.lookup e.origin) (s.gov.thawing.duplicates e.origin) [] 0
      s.gov := ⟨⟨h,nodup_nil,rfl⟩,h.holds⟩
  unfold perform
  unfold Searchable FundsAction.Searchable at hsearch
  unfold Separate FundsAction.Separate at hseparate
  split
  · next amount target haction =>
    simp only [haction] at hsearch hseparate
    exact backed_stake hfree h hsearch hseparate.1 hseparate.2
  · exact ((s.info e.origin).wp_setBalance (by simp) _ _ (.inr (by simp)) _).imp fun _ g' h' =>
      ⟨_,_,h.power h'.1⟩
  · exact (backed_pruneThawing h).imp fun _ _ h' => ⟨_,h'⟩
  · next epochCreated haction =>
    simp only [haction] at hseparate
    refine (Acting.on_markThawingAsFrozen (backedRedating_laws hfree) hself
      fun t ht hexp htarget f hf heq => ?_).bind fun _ _ h' => ⟨_,_,h'.choose_spec.1.1⟩
    have hown : f.target = e.origin := (congrArg snd heq).trans htarget
    exact hseparate f hf hown (mem_map.mpr ⟨t,ht,ext hexp htarget⟩)
  · next epochUnfrozen haction =>
    simp only [haction] at hsearch
    refine (Acting.on_setExpirationOfFrozen (backedRedating_laws hfree) hself
      (fun t ht hexp f hf heq => ?_) fun _ => hsearch).bind
        fun _ _ h' => ⟨_,_,h'.choose_spec.1.1⟩
    -- frozen funds and the stake already have different targets
    have htarget : f.target = t.target := congrArg snd heq
    exact hs.apart e.origin f hf (mem_map.mpr ⟨t,ht,ext hexp htarget.symm⟩)

namespace Holdings

theorem step_settled (hfree : cfg.CollisionFree) {s s' : Holdings H} {e : FundsEvent H}
    {o : List Empty} (hs : s.gov.Settled cfg) (hsearch : e.Searchable s)
    (hseparate : e.Separate s) (h : s.step cfg e = some (s',o)) : s'.gov.Settled cfg := by
  obtain ⟨info',g',hrun,rfl⟩ := step_eq_some cfg h
  obtain ⟨st,ts,hbacked⟩ := (e.backed_perform hfree hs hsearch hseparate).run hrun
  exact hbacked.settled hs

theorem attempt_ne_liability (hfree : cfg.CollisionFree) {s : Holdings H} {e : FundsEvent H}
    (hs : s.gov.Settled cfg) (hsearch : e.Searchable s) (hseparate : e.Separate s) :
    s.attempt cfg e ≠ .error .liability := by
  have hwp := wp_iff.mp (e.backed_perform hfree hs hsearch hseparate)
  unfold attempt
  cases hrun : (e.perform cfg (s.info e.origin)).run s.gov with
  | ok r => exact fun heq => by cases heq
  | error reason =>
    intro heq
    cases heq
    exact hwp.2 _ hrun rfl

/-- In every state reached by steps that consolidate thawing funds and keep liabilities apart, each
record has a liability of its own with its target, account and amount, and no further such step
halts on a missing one. -/
theorem exec_backed (hfree : cfg.CollisionFree) {s s' : Holdings H} {es : List (FundsEvent H)}
    {o : List Empty} (hs : s.gov.Settled cfg)
    (hrun : Machine.Along (step cfg) (fun s e => e.Searchable s ∧ e.Separate s) s es)
    (h : Machine.exec (step cfg) s es = some (s',o)) :
    (∀ r : FundsRecord H,r.StoredIn s'.gov →
      ∃ l,s'.gov.masterLiabilities.lookup r.liabilityHash = some l ∧ l.target = r.target ∧
        l.source = r.account ∧ l.amount = r.amount) ∧
    (∀ r r' : FundsRecord H,r.StoredIn s'.gov → r'.StoredIn s'.gov → r ≠ r' →
      r.liabilityHash ≠ r'.liabilityHash) ∧
    ∀ e : FundsEvent H,e.Searchable s' → e.Separate s' → s'.attempt cfg e ≠ .error .liability := by
  have hsettled : s'.gov.Settled cfg := Machine.exec_preserves (I := fun _ s => s.gov.Settled cfg)
      (fun _ _ _ _ _ hs hstep h => step_settled hfree hs hstep.1 hstep.2 h) hs hrun h
  exact ⟨fun r hr => r.exists_liability hfree hsettled hr,
    fun r r' hr hr' hne heq => hne (r.eq_of_liabilityHash hfree hsettled hr hr' heq),
    fun e hsearch hseparate => attempt_ne_liability hfree hsettled hsearch hseparate⟩

theorem sample_settled : sample.gov.Settled Config.sample where
  orderly := sample_tidy.gov.orderly
  distinct := sample_consolidated
  thawing _ _ ht := absurd ht not_mem_nil
  staked a f hf := by cases hf
  apart a f hf := by cases hf

theorem exec_backed_sampleRun :
    ∃ s' o,Machine.exec (step Config.sample) sample sampleRun = some (s',o) ∧
      ∀ r : FundsRecord ℕ,r.StoredIn s'.gov →
        ∃ l,s'.gov.masterLiabilities.lookup r.liabilityHash = some l ∧ l.target = r.target ∧
          l.source = r.account ∧ l.amount = r.amount := by
  have hrun : (Machine.exec (step Config.sample) sample sampleRun).isSome := by decide +kernel
  obtain ⟨⟨s',o⟩,h⟩ := isSome_iff_exists.mp hrun
  have hsteps : Machine.checks (step Config.sample)
      (fun s e => decide (e.Searchable s ∧ e.Separate s)) sample sampleRun = true := by
    decide +kernel
  refine ⟨s',o,h,(exec_backed Config.sample_collisionFree sample_settled ?_ h).1⟩
  simpa using Machine.along_of_checks hsteps

/-- Account 1 stakes to itself, reduces the stake, and what thaws is frozen. -/
def freezeRun : List (FundsEvent ℕ) :=
  [sampleEvent 10 (.stake 100 1),sampleEvent 10 (.stake 90 1),
    sampleEvent 11 (.markThawingAsFrozen 10)]

/-- Frozen and remaining self stake share a liability. Unstaking the rest deletes it; unfreezing
halts. -/
theorem exec_shares_liability :
    Machine.Along (step Config.sample) (fun s e => s.accepts Config.sample e = true) sample
      (freezeRun ++ [sampleEvent 11 (.stake 0 1)]) ∧
    (∃ s' o,Machine.exec (step Config.sample) sample freezeRun = some (s',o) ∧
      s'.gov.stakes.lookup 1 = some ⟨1,90,fundsHash Config.sample 1 1 0⟩ ∧
      s'.gov.thawing.duplicates 1 = [⟨0,1,10,fundsHash Config.sample 1 1 0⟩] ∧
      s'.gov.masterLiabilities.lookup (fundsHash Config.sample 1 1 0) = some ⟨1,1,10,0,false⟩) ∧
    ∃ s' o,Machine.exec (step Config.sample) sample
        (freezeRun ++ [sampleEvent 11 (.stake 0 1)]) = some (s',o) ∧
      s'.attempt Config.sample (sampleEvent 12 (.setExpirationOfFrozen 12)) =
        .error .liability := by
  refine ⟨Machine.along_of_checks (by decide +kernel),?_,?_⟩
  · have hrun : (Machine.exec (step Config.sample) sample freezeRun).map (fun r =>
        (r.1.gov.stakes.lookup 1,r.1.gov.thawing.duplicates 1,
          r.1.gov.masterLiabilities.lookup (fundsHash Config.sample 1 1 0))) =
        some (some ⟨1,90,fundsHash Config.sample 1 1 0⟩,
          [⟨0,1,10,fundsHash Config.sample 1 1 0⟩],some ⟨1,1,10,0,false⟩) := by decide +kernel
    obtain ⟨⟨s',o⟩,h,heq⟩ := map_eq_some_iff.mp hrun
    simp only [Prod.mk.injEq] at heq
    exact ⟨s',o,h,heq⟩
  · have hrun : (Machine.exec (step Config.sample) sample
        (freezeRun ++ [sampleEvent 11 (.stake 0 1)])).map (fun r =>
          r.1.reason Config.sample (sampleEvent 12 (.setExpirationOfFrozen 12))) =
        some (some .liability) := by decide +kernel
    obtain ⟨⟨s',o⟩,h,heq⟩ := map_eq_some_iff.mp hrun
    exact ⟨s',o,h,attempt_of_reason Config.sample heq⟩

end Holdings

end LogosCore.Ledger
