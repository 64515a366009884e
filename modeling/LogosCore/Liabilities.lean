import LogosCore.StakingLaws

/-! # The order of the liability store

Every liability stands under its hash and among those of its target, and the secondary ones
are exactly those listed for their source. Stake and thawing funds refer to primary
liabilities, so nothing but a secondary liability itself changes the secondary ones. -/
namespace LogosCore.Ledger

variable {H : Type} [DecidableEq H] [Zero H] {cfg : Config H}

open Program StakingManager LiabilityManager

/-- No two liabilities that differ in more than the amount have one hash. -/
def Config.CollisionFree (cfg : Config H) : Prop :=
  ∀ l l' : Liability H,l.hash cfg = l'.hash cfg → { l with amount := l'.amount } = l'

theorem Config.CollisionFree.same (hfree : cfg.CollisionFree) {l l' : Liability H}
    (h : l.hash cfg = l'.hash cfg) : l.target = l'.target ∧ l.source = l'.source ∧
      l.expirationEpoch = l'.expirationEpoch ∧ l.isSecondary = l'.isSecondary := by
  rw [← hfree l l' h]
  exact ⟨rfl,rfl,rfl,rfl⟩

theorem Config.sample_collisionFree : Config.sample.CollisionFree := by
  intro l l' h
  simp only [Liability.hash,Config.sample,Nat.pair_eq_pair] at h
  obtain ⟨⟨htarget,hsource⟩,hexpiration,hsecondary⟩ := h
  have hexpiration := BitVec.eq_of_toNat_eq hexpiration
  have hsecondary : l.isSecondary = l'.isSecondary := by
    revert hsecondary
    cases l.isSecondary <;> cases l'.isSecondary <;> simp
  rw [htarget,hsource,hexpiration,hsecondary]

namespace GovernanceStore

structure Orderly (cfg : Config H) (g : GovernanceStore H) : Prop where
  keyed : ∀ h l,g.masterLiabilities.lookup h = some l → l.hash cfg = h
  listed : ∀ h l,g.masterLiabilities.lookup h = some l → h ∈ g.repLiabilities.duplicates l.target
  secondary : ∀ source h,h ∈ g.secondaryLiabilities.duplicates source ↔
    ∃ l,g.masterLiabilities.lookup h = some l ∧ l.isSecondary = true ∧ l.source = source
  nodup : ∀ source,(g.secondaryLiabilities.duplicates source).Nodup
  staked : ∀ a f,g.stakes.lookup a = some f → f.Formed cfg a
  thawing : ∀ a,∀ t ∈ g.thawing.duplicates a,t.Formed cfg a

theorem lookup_putLiability (hfree : cfg.CollisionFree) {g : GovernanceStore H}
    (hkeyed : ∀ h l,g.masterLiabilities.lookup h = some l → l.hash cfg = h) (l : Liability H) :
    ∃ amount,∀ h,(g.putLiability cfg l).masterLiabilities.lookup h =
      if h = l.hash cfg then some { l with amount := amount } else g.masterLiabilities.lookup h := by
  unfold putLiability
  cases hlookup : g.masterLiabilities.lookup (l.hash cfg) with
  | none => exact ⟨l.amount,fun h => Table.lookup_insert_ite ..⟩
  | some existing =>
    have hsame := hfree l existing (hkeyed _ _ hlookup).symm
    refine ⟨existing.amount + l.amount,fun h => ?_⟩
    rw [← hsame]
    exact Table.lookup_insert_ite ..

/-- The store with a new secondary liability, which is also listed for its source. -/
def putSecondary (cfg : Config H) (g : GovernanceStore H) (l : Liability H) : GovernanceStore H :=
  { g.putLiability cfg l with
    secondaryLiabilities := (g.putLiability cfg l).secondaryLiabilities.putDuplicate
      (cfg.rank · ≤ cfg.rank ·) l.source (l.hash cfg) }

theorem lookup_putSecondary (g : GovernanceStore H) (l : Liability H) (h : H) :
    (g.putSecondary cfg l).masterLiabilities.lookup h =
      (g.putLiability cfg l).masterLiabilities.lookup h := rfl

def Secondary (g : GovernanceStore H) (h : H) (l : Liability H) : Prop :=
  g.masterLiabilities.lookup h = some l ∧ l.isSecondary = true

structure SameSecondary (g g' : GovernanceStore H) : Prop where
  index : g'.secondaryLiabilities = g.secondaryLiabilities
  master : ∀ h l,g'.Secondary h l ↔ g.Secondary h l

theorem SameSecondary.of_primary {g g' : GovernanceStore H} (h : H)
    (hindex : g'.secondaryLiabilities = g.secondaryLiabilities) (hother : ∀ h',h' ≠ h →
      g'.masterLiabilities.lookup h' = g.masterLiabilities.lookup h')
    (hold : ∀ l,g.masterLiabilities.lookup h = some l → l.isSecondary = false)
    (hnew : ∀ l,g'.masterLiabilities.lookup h = some l → l.isSecondary = false) :
    g.SameSecondary g' := by
  refine ⟨hindex,fun h' l => ?_⟩
  unfold Secondary
  by_cases heq : h' = h
  · subst heq
    constructor
    · rintro ⟨hl,hsec⟩
      exact absurd ((hnew l hl).symm.trans hsec) Bool.false_ne_true
    · rintro ⟨hl,hsec⟩
      exact absurd ((hold l hl).symm.trans hsec) Bool.false_ne_true
  · rw [hother h' heq]

namespace Orderly

variable {g g' : GovernanceStore H} {h : H} {l : Liability H}

variable (ho : g.Orderly cfg)
include ho

/-- What stands under the hash of staked or thawing funds is their liability. -/
theorem eq_of_fundsHash (hfree : cfg.CollisionFree) {target source : H} {expiration : Epoch}
    (hl : g.masterLiabilities.lookup (fundsHash cfg target source expiration) = some l) :
    l = ⟨target,source,l.amount,expiration,false⟩ :=
  (hfree ⟨target,source,0,expiration,false⟩ l (ho.keyed _ _ hl).symm).symm

theorem not_secondary_of_fundsHash (hfree : cfg.CollisionFree)
    {target source : H} {expiration : Epoch}
    (hl : g.masterLiabilities.lookup (fundsHash cfg target source expiration) = some l) :
    l.isSecondary = false :=
  congrArg Liability.isSecondary (ho.eq_of_fundsHash hfree hl)

theorem of_sameFunds (hstakes : g'.stakes = g.stakes) (hthawing : g'.thawing = g.thawing)
    (hkeyed : ∀ h l,g'.masterLiabilities.lookup h = some l → l.hash cfg = h)
    (hlisted : ∀ h l,g'.masterLiabilities.lookup h = some l →
      h ∈ g'.repLiabilities.duplicates l.target) (hsame : g.SameSecondary g') : g'.Orderly cfg where
  keyed := hkeyed
  listed := hlisted
  secondary source h := by
    rw [hsame.index,ho.secondary]
    constructor
    · rintro ⟨l,hl,hsec,hsource⟩
      obtain ⟨hl',hsec'⟩ := (hsame.master h l).mpr ⟨hl,hsec⟩
      exact ⟨l,hl',hsec',hsource⟩
    · rintro ⟨l,hl,hsec,hsource⟩
      obtain ⟨hl',hsec'⟩ := (hsame.master h l).mp ⟨hl,hsec⟩
      exact ⟨l,hl',hsec',hsource⟩
  nodup source := by
    rw [hsame.index]
    exact ho.nodup source
  staked := by
    rw [hstakes]
    exact ho.staked
  thawing := by
    rw [hthawing]
    exact ho.thawing

theorem power (hp : g.OnlyPower g') : g'.Orderly cfg := by
  rw [hp]
  exact ⟨ho.keyed,ho.listed,ho.secondary,ho.nodup,ho.staked,ho.thawing⟩

theorem keyed_putLiability (hfree : cfg.CollisionFree) :
    ∀ h l',(g.putLiability cfg l).masterLiabilities.lookup h = some l' → l'.hash cfg = h := by
  obtain ⟨amount,hlookup⟩ := lookup_putLiability hfree ho.keyed l
  intro h l' hl'
  rw [hlookup] at hl'
  split at hl'
  · next heq =>
    cases hl'
    exact heq.symm
  · exact ho.keyed h l' hl'

theorem listed_putLiability : ∀ h l',(g.putLiability cfg l).masterLiabilities.lookup h = some l' →
      h ∈ (g.putLiability cfg l).repLiabilities.duplicates l'.target := by
  intro h l' hl'
  unfold putLiability at hl' ⊢
  split at hl'
  · next existing hexisting =>
    rw [Table.lookup_insert_ite] at hl'
    split at hl'
    · next heq =>
      cases hl'
      rw [heq]
      exact ho.listed _ existing hexisting
    · exact ho.listed h l' hl'
  · rw [Table.lookup_insert_ite] at hl'
    rw [Table.mem_putDuplicate]
    split at hl'
    · next heq =>
      cases hl'
      exact .inl ⟨rfl,heq⟩
    · exact .inr (ho.listed h l' hl')

theorem putPrimary (hfree : cfg.CollisionFree) (hl : l.isSecondary = false) :
    g.SameSecondary (g.putLiability cfg l) ∧ (g.putLiability cfg l).Orderly cfg := by
  obtain ⟨amount,hlookup⟩ := lookup_putLiability hfree ho.keyed l
  have honly := g.onlyLiabilities_putLiability cfg l
  have hsame : g.SameSecondary (g.putLiability cfg l) := by
    refine .of_primary (l.hash cfg) ?_ (fun h' hne => ?_) (fun l' hl' => ?_) fun l' hl' => ?_
    · unfold putLiability
      split <;> rfl
    · rw [hlookup,if_neg hne]
    · exact (hfree.same (ho.keyed _ _ hl').symm).2.2.2.symm.trans hl
    · rw [hlookup,if_pos rfl] at hl'
      cases hl'
      exact hl
  exact ⟨hsame,ho.of_sameFunds honly.stakes honly.thawing (ho.keyed_putLiability hfree)
    ho.listed_putLiability hsame⟩

theorem setAmount (hl : g.masterLiabilities.lookup h = some l)
    (hsec : l.isSecondary = false) (amount : Amount) :
    g.SameSecondary { g with
      masterLiabilities := g.masterLiabilities.insert h { l with amount := amount } } ∧
    Orderly cfg { g with
      masterLiabilities := g.masterLiabilities.insert h { l with amount := amount } } := by
  have hlookup := Table.lookup_insert_ite g.masterLiabilities h { l with amount := amount }
  have hsame : g.SameSecondary { g with
      masterLiabilities := g.masterLiabilities.insert h { l with amount := amount } } := by
    refine .of_primary h rfl (fun h' hne => ?_) (fun l' hl' => ?_) fun l' hl' => ?_
    · exact (hlookup h').trans (if_neg hne)
    · cases hl.symm.trans hl'
      exact hsec
    · cases ((hlookup h).trans (if_pos rfl)).symm.trans hl'
      exact hsec
  refine ⟨hsame,ho.of_sameFunds rfl rfl ?_ ?_ hsame⟩
  · intro h' l' hl'
    rw [hlookup] at hl'
    split at hl'
    · next heq =>
      cases hl'
      rw [heq]
      exact ho.keyed h l hl
    · exact ho.keyed h' l' hl'
  · intro h' l' hl'
    rw [hlookup] at hl'
    split at hl'
    · next heq =>
      cases hl'
      rw [heq]
      exact ho.listed h l hl
    · exact ho.listed h' l' hl'

theorem deletePrimary (hl : g.masterLiabilities.lookup h = some l) (hsec : l.isSecondary = false) :
    g.SameSecondary { g with
      masterLiabilities := g.masterLiabilities.erase h
      repLiabilities := g.repLiabilities.eraseDuplicate l.target h } ∧
    Orderly cfg { g with
      masterLiabilities := g.masterLiabilities.erase h
      repLiabilities := g.repLiabilities.eraseDuplicate l.target h } := by
  have hlookup := Table.lookup_erase_ite g.masterLiabilities h
  have hsame : g.SameSecondary { g with
      masterLiabilities := g.masterLiabilities.erase h
      repLiabilities := g.repLiabilities.eraseDuplicate l.target h } := by
    refine .of_primary h rfl (fun h' hne => ?_) (fun l' hl' => ?_) fun l' hl' => ?_
    · exact (hlookup h').trans (if_neg hne)
    · cases hl.symm.trans hl'
      exact hsec
    · cases ((hlookup h).trans (if_pos rfl)).symm.trans hl'
  refine ⟨hsame,ho.of_sameFunds rfl rfl ?_ ?_ hsame⟩
  · intro h' l' hl'
    rw [hlookup] at hl'
    split at hl'
    · cases hl'
    · exact ho.keyed h' l' hl'
  · intro h' l' hl'
    rw [hlookup] at hl'
    split at hl'
    · cases hl'
    · next hne =>
      have hlisted := ho.listed h' l' hl'
      rw [Table.duplicates_eraseDuplicate]
      split
      · next htarget =>
        rw [htarget] at hlisted
        exact (List.mem_erase_of_ne hne).mpr hlisted
      · exact hlisted

theorem putStake {a : H} {f : StakedFunds H} (hf : f.Formed cfg a) :
    Orderly cfg { g with stakes := g.stakes.insert a f } := by
  refine ⟨ho.keyed,ho.listed,ho.secondary,ho.nodup,fun c f' hf' => ?_,ho.thawing⟩
  rw [Table.lookup_insert_ite] at hf'
  split at hf'
  · next heq =>
    cases hf'
    rw [heq]
    exact hf
  · exact ho.staked c f' hf'

theorem dropStake (a : H) : Orderly cfg { g with stakes := g.stakes.erase a } := by
  refine ⟨ho.keyed,ho.listed,ho.secondary,ho.nodup,fun c f' hf' => ?_,ho.thawing⟩
  rw [Table.lookup_erase_ite] at hf'
  split at hf'
  · cases hf'
  · exact ho.staked c f' hf'

theorem setThawing {a : H} {t : Table H (List (ThawingFunds H))} {ts : List (ThawingFunds H)}
    (ht : ∀ c,t.duplicates c = if c = a then ts else g.thawing.duplicates c)
    (hts : ∀ t ∈ ts,t.Formed cfg a) : Orderly cfg { g with thawing := t } := by
  refine ⟨ho.keyed,ho.listed,ho.secondary,ho.nodup,ho.staked,fun c u hu => ?_⟩
  rw [ht] at hu
  split at hu
  · next heq =>
    rw [heq]
    exact hts u hu
  · exact ho.thawing c u hu

theorem putSecondary (hfree : cfg.CollisionFree) (hl : l.isSecondary = true) :
    (g.putSecondary cfg l).Orderly cfg := by
  unfold GovernanceStore.putSecondary
  obtain ⟨amount,hlookup⟩ := lookup_putLiability hfree ho.keyed l
  have honly := g.onlyLiabilities_putLiability cfg l
  have hindex : (g.putLiability cfg l).secondaryLiabilities = g.secondaryLiabilities := by
    unfold putLiability
    split <;> rfl
  refine ⟨ho.keyed_putLiability hfree,ho.listed_putLiability,fun source h => ?_,
    fun source => ?_,?_,?_⟩
  · rw [Table.mem_putDuplicate,hindex,hlookup,ho.secondary]
    split
    · next heq =>
      subst heq
      constructor
      · rintro (⟨rfl,-⟩ | ⟨l',hl',hsec,rfl⟩)
        · exact ⟨_,rfl,hl,rfl⟩
        · exact ⟨_,rfl,hl,(hfree.same (ho.keyed _ _ hl').symm).2.1⟩
      · rintro ⟨l',heq,-,rfl⟩
        cases heq
        exact .inl ⟨rfl,rfl⟩
    · next hne => simp only [hne,and_false,false_or]
  · rw [hindex]
    exact Table.nodup_putDuplicate ho.nodup ..
  · rw [honly.stakes]
    exact ho.staked
  · dsimp only
    rw [honly.thawing]
    exact ho.thawing

theorem deleteSecondary (hl : g.masterLiabilities.lookup h = some l) : Orderly cfg { g with
      masterLiabilities := g.masterLiabilities.erase h
      secondaryLiabilities := g.secondaryLiabilities.eraseDuplicate l.source h } := by
  have hlookup := Table.lookup_erase_ite g.masterLiabilities h
  refine ⟨fun h' l' hl' => ?_,fun h' l' hl' => ?_,fun source h' => ?_,fun source => ?_,
    ho.staked,ho.thawing⟩
  · rw [hlookup] at hl'
    split at hl'
    · cases hl'
    · exact ho.keyed h' l' hl'
  · rw [hlookup] at hl'
    split at hl'
    · cases hl'
    · exact ho.listed h' l' hl'
  · dsimp only
    rw [Table.duplicates_eraseDuplicate,hlookup]
    have hold := ho.secondary source h'
    by_cases heq : h' = h
    · subst heq
      rw [if_pos rfl]
      constructor
      · intro hmem
        split at hmem
        · exact absurd hmem (ho.nodup _).not_mem_erase
        · next hne =>
          obtain ⟨l',hl',-,hsource⟩ := hold.mp hmem
          cases hl.symm.trans hl'
          exact absurd hsource.symm hne
      · rintro ⟨l',hl',-⟩
        cases hl'
    · split
      · next hsource =>
        subst hsource
        rw [List.mem_erase_of_ne heq]
        exact hold
      · exact hold
  · exact Table.nodup_eraseDuplicate ho.nodup ..

end Orderly
end GovernanceStore

end LogosCore.Ledger
