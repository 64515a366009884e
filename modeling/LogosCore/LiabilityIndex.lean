import LogosCore.SecondaryLiabilities

/-! # The indices of the liability store

A liability is listed for its target and, if it is secondary, for its source, and it is there
because funds refer to it or because it has not expired. A liability is created before the
record that refers to it is stored, so some are in flight while an operation runs. -/
namespace LogosCore.Ledger

variable {H : Type} [DecidableEq H] [Zero H] {cfg : Config H}

open AList Program StakingManager LiabilityManager

variable {clock : Epoch} {f : StakedFunds H} {s : Holdings H}

namespace GovernanceStore

/-- Staked or thawing funds refer to the liability with this hash. -/
def Refers (g : GovernanceStore H) (h : H) : Prop :=
  (∃ a f,g.stakes.lookup a = some f ∧ f.liabilityHash = h) ∨
    ∃ a,∃ t ∈ g.thawing.duplicates a,t.liabilityHash = h

theorem refers_iff {g : GovernanceStore H} {h : H} :
    g.Refers h ↔ (∃ entry ∈ g.stakes.entries,entry.2.liabilityHash = h) ∨
      ∃ entry ∈ g.thawing.entries,∃ t ∈ entry.2,t.liabilityHash = h := by
  refine or_congr ⟨?_,?_⟩ ⟨?_,?_⟩
  · rintro ⟨a,f,hf,hhash⟩
    exact ⟨⟨a,f⟩,mem_lookup_iff.mp hf,hhash⟩
  · rintro ⟨⟨a,f⟩,hf,hhash⟩
    exact ⟨a,f,mem_lookup_iff.mpr hf,hhash⟩
  · rintro ⟨a,t,ht,hhash⟩
    obtain ⟨ts,hts,ht⟩ := Table.mem_duplicates.mp ht
    exact ⟨⟨a,ts⟩,mem_lookup_iff.mp hts,t,ht,hhash⟩
  · rintro ⟨⟨a,ts⟩,hts,t,ht,hhash⟩
    exact ⟨a,t,Table.mem_duplicates.mpr ⟨ts,mem_lookup_iff.mpr hts,ht⟩,hhash⟩

instance (g : GovernanceStore H) (h : H) : Decidable (g.Refers h) :=
  decidable_of_iff _ refers_iff.symm

def Listed (g : GovernanceStore H) : Prop :=
  ∀ target h,h ∈ g.repLiabilities.duplicates target →
    ∃ l,g.masterLiabilities.lookup h = some l ∧ l.target = target

def Fresh (g : GovernanceStore H) (epoch : Epoch) : Prop :=
  ∀ entry ∈ g.masterLiabilities.entries,entry.2.isSecondary = true → epoch < entry.2.expirationEpoch

instance (g : GovernanceStore H) (epoch : Epoch) : Decidable (g.Fresh epoch) :=
  inferInstanceAs (Decidable (∀ entry ∈ _,_))

theorem fresh_iff {g : GovernanceStore H} {epoch : Epoch} :
    g.Fresh epoch ↔ ∀ h l,g.Secondary h l → epoch < l.expirationEpoch := by
  constructor
  · rintro hfresh h l ⟨hl,hsec⟩
    exact hfresh ⟨h,l⟩ (mem_lookup_iff.mp hl) hsec
  · rintro hfresh ⟨h,l⟩ hmem hsec
    exact hfresh h l ⟨mem_lookup_iff.mpr hmem,hsec⟩

/-- The indices agree with the store, and every primary liability is in use or in flight. -/
structure Indexed (cfg : Config H) (epoch : Epoch) (flight : List H) (g : GovernanceStore H) :
    Prop where
  orderly : g.Orderly cfg
  listed : g.Listed
  nodup : ∀ target,(g.repLiabilities.duplicates target).Nodup
  fresh : g.Fresh epoch
  referred : ∀ h l,g.masterLiabilities.lookup h = some l → l.isSecondary = false →
    g.Refers h ∨ h ∈ flight
  nonzero : ∀ a f,g.stakes.lookup a = some f → f.amount ≠ 0

theorem Refers.of_liabilities {g g' : GovernanceStore H} {h : H} (hr : g.Refers h)
    (hl : g.OnlyLiabilities g') : g'.Refers h := by
  unfold Refers
  rw [hl.stakes,hl.thawing]
  exact hr

namespace Indexed

variable {epoch : Epoch} {flight flight' : List H} {g g' : GovernanceStore H} {h : H}
  {l : Liability H}

theorem mono (hi : g.Indexed cfg epoch flight) (hsub : flight ⊆ flight') :
    g.Indexed cfg epoch flight' :=
  ⟨hi.orderly,hi.listed,hi.nodup,hi.fresh,
    fun h l hl hsec => (hi.referred h l hl hsec).imp_right (hsub ·),hi.nonzero⟩

theorem push (hi : g.Indexed cfg epoch flight) (h : H) : g.Indexed cfg epoch (h::flight) :=
  hi.mono (List.subset_cons_self h flight)

theorem land (hi : g.Indexed cfg epoch (h::flight))
    (hland : g.masterLiabilities.lookup h = none ∨ g.Refers h ∨ h ∈ flight) :
    g.Indexed cfg epoch flight := by
  refine ⟨hi.orderly,hi.listed,hi.nodup,hi.fresh,fun h' l hl hsec => ?_,hi.nonzero⟩
  rcases hi.referred h' l hl hsec with hr | hmem
  · exact .inl hr
  · rcases List.mem_cons.mp hmem with rfl | hmem
    · rcases hland with hnone | hland
      · rw [hl] at hnone
        cases hnone
      · exact hland
    · exact .inr hmem

theorem power (hi : g.Indexed cfg epoch flight) (hp : g.OnlyPower g') :
    g'.Indexed cfg epoch flight := by
  have ho := hi.orderly.power hp
  rw [hp] at ho ⊢
  exact ⟨ho,hi.listed,hi.nodup,hi.fresh,hi.referred,hi.nonzero⟩

theorem listed_putLiability (hlisted : g.Listed) (l : Liability H) :
    (g.putLiability cfg l).Listed := by
  intro target h hh
  unfold putLiability at hh ⊢
  split at hh
  · next existing hexisting =>
    obtain ⟨l',hl',htarget⟩ := hlisted target h hh
    rw [Table.lookup_insert_ite]
    split
    · next heq =>
      subst heq
      cases hexisting.symm.trans hl'
      exact ⟨_,rfl,htarget⟩
    · exact ⟨l',hl',htarget⟩
  · next hnone =>
    rw [Table.lookup_insert_ite]
    rcases Table.mem_putDuplicate.mp hh with ⟨rfl,rfl⟩ | hh
    · exact ⟨l,if_pos rfl,rfl⟩
    · obtain ⟨l',hl',htarget⟩ := hlisted target h hh
      refine ⟨l',(if_neg fun heq => ?_).trans hl',htarget⟩
      subst heq
      cases hnone.symm.trans hl'

theorem nodup_putLiability (hnodup : ∀ target,(g.repLiabilities.duplicates target).Nodup)
    (l : Liability H) (target : H) :
    ((g.putLiability cfg l).repLiabilities.duplicates target).Nodup := by
  unfold putLiability
  split
  · exact hnodup target
  · exact Table.nodup_putDuplicate hnodup ..

/-- A new primary liability is in flight. -/
theorem putPrimary (hi : g.Indexed cfg epoch flight) (hfree : cfg.CollisionFree)
    (hl : l.isSecondary = false) :
    (g.putLiability cfg l).Indexed cfg epoch (l.hash cfg::flight) := by
  obtain ⟨hsame,ho⟩ := hi.orderly.putPrimary hfree hl
  obtain ⟨amount,hlookup⟩ := lookup_putLiability hfree hi.orderly.keyed l
  have honly := g.onlyLiabilities_putLiability cfg l
  refine ⟨ho,listed_putLiability hi.listed l,nodup_putLiability hi.nodup l,?_,
    fun h l' hl' hsec => ?_,?_⟩
  · refine fresh_iff.mpr fun h l' hl' => ?_
    exact fresh_iff.mp hi.fresh h l' ((hsame.master h l').mp hl')
  · rw [hlookup] at hl'
    split at hl'
    · next heq => exact .inr (heq ▸ List.mem_cons_self)
    · exact (hi.referred h l' hl' hsec).imp (·.of_liabilities honly) (.tail _)
  · rw [honly.stakes]
    exact hi.nonzero

/-- A new secondary liability has to expire later. -/
theorem putSecondary (hi : g.Indexed cfg epoch flight) (hfree : cfg.CollisionFree)
    (hl : l.isSecondary = true) (hlater : epoch < l.expirationEpoch) :
    (g.putSecondary cfg l).Indexed cfg epoch flight := by
  obtain ⟨amount,hlookup⟩ := lookup_putLiability hfree hi.orderly.keyed l
  have honly := g.onlyLiabilities_putLiability cfg l
  have hstakes : (g.putSecondary cfg l).stakes = g.stakes := honly.stakes
  have hthawing : (g.putSecondary cfg l).thawing = g.thawing := honly.thawing
  refine ⟨hi.orderly.putSecondary hfree hl,listed_putLiability hi.listed l,
    nodup_putLiability hi.nodup l,fresh_iff.mpr ?_,fun h l' hl' hsec => ?_,?_⟩
  · rintro h l' ⟨hl',hsec⟩
    rw [lookup_putSecondary,hlookup] at hl'
    split at hl'
    · cases hl'
      exact hlater
    · exact fresh_iff.mp hi.fresh h l' ⟨hl',hsec⟩
  · rw [lookup_putSecondary,hlookup] at hl'
    split at hl'
    · cases hl'
      exact absurd (hsec.symm.trans hl) Bool.false_ne_true
    · unfold Refers
      rw [hstakes,hthawing]
      exact hi.referred h l' hl' hsec
  · rw [hstakes]
    exact hi.nonzero

theorem setAmount (hi : g.Indexed cfg epoch flight) (hl : g.masterLiabilities.lookup h = some l)
    (hsec : l.isSecondary = false) (amount : Amount) :
    Indexed cfg epoch flight { g with
      masterLiabilities := g.masterLiabilities.insert h { l with amount := amount } } := by
  obtain ⟨hsame,ho⟩ := hi.orderly.setAmount hl hsec amount
  have hlookup := Table.lookup_insert_ite g.masterLiabilities h { l with amount := amount }
  refine ⟨ho,fun target h' hh' => ?_,hi.nodup,fresh_iff.mpr fun h' l' hl' => ?_,
    fun h' l' hl' hsec' => ?_,hi.nonzero⟩
  · obtain ⟨l',hl',htarget⟩ := hi.listed target h' hh'
    rw [hlookup]
    split
    · next heq =>
      subst heq
      cases hl.symm.trans hl'
      exact ⟨_,rfl,htarget⟩
    · exact ⟨l',hl',htarget⟩
  · exact fresh_iff.mp hi.fresh h' l' ((hsame.master h' l').mp hl')
  · rw [hlookup] at hl'
    split at hl'
    · next heq => exact hi.referred h' l (heq ▸ hl) hsec
    · exact hi.referred h' l' hl' hsec'

theorem deletePrimary (hi : g.Indexed cfg epoch (h::flight))
    (hl : g.masterLiabilities.lookup h = some l) (hsec : l.isSecondary = false) :
    Indexed cfg epoch flight { g with
      masterLiabilities := g.masterLiabilities.erase h
      repLiabilities := g.repLiabilities.eraseDuplicate l.target h } := by
  obtain ⟨hsame,ho⟩ := hi.orderly.deletePrimary hl hsec
  have hlookup := Table.lookup_erase_ite g.masterLiabilities h
  refine ⟨ho,fun target h' hh' => ?_,fun target => ?_,fresh_iff.mpr fun h' l' hl' => ?_,
    fun h' l' hl' hsec' => ?_,hi.nonzero⟩
  · rw [Table.duplicates_eraseDuplicate] at hh'
    have hne : h' ≠ h := by
      rintro rfl
      split at hh'
      · exact absurd hh' (hi.nodup _).not_mem_erase
      · next hother =>
        obtain ⟨l',hl',htarget⟩ := hi.listed target h' hh'
        cases hl.symm.trans hl'
        exact hother htarget.symm
    have hold : h' ∈ g.repLiabilities.duplicates target := by
      split at hh'
      · next heq => exact heq ▸ List.mem_of_mem_erase hh'
      · exact hh'
    rw [hlookup,if_neg hne]
    exact hi.listed target h' hold
  · exact Table.nodup_eraseDuplicate hi.nodup ..
  · exact fresh_iff.mp hi.fresh h' l' ((hsame.master h' l').mp hl')
  · rw [hlookup] at hl'
    split at hl'
    · cases hl'
    · next hne =>
      refine (hi.referred h' l' hl' hsec').imp_right fun hmem => ?_
      exact (List.mem_cons.mp hmem).resolve_left hne

/-- A stake is stored in place of one with the same liability. -/
theorem putStake (hi : g.Indexed cfg epoch (h::flight)) {a : H} (hf : f.Formed cfg a)
    (hnonzero : f.amount ≠ 0) (hh : f.liabilityHash = h)
    (hold : ∀ f' ∈ g.stakes.lookup a,f'.liabilityHash = h) :
    Indexed cfg epoch flight { g with stakes := g.stakes.insert a f } := by
  have hlookup := Table.lookup_insert_ite g.stakes a f
  refine land ⟨hi.orderly.putStake hf,hi.listed,hi.nodup,hi.fresh,fun h' l hl hsec => ?_,
    fun c f' hf' => ?_⟩ (.inr (.inl (.inl ⟨a,f,(hlookup a).trans (if_pos rfl),hh⟩)))
  · rcases hi.referred h' l hl hsec with (⟨c,f',hf',hhash⟩ | hthawing) | hmem
    · by_cases hc : c = a
      · subst hc
        exact .inr (hhash ▸ hold f' hf' ▸ List.mem_cons_self)
      · exact .inl (.inl ⟨c,f',(hlookup c).trans ((if_neg hc).trans hf'),hhash⟩)
    · exact .inl (.inr hthawing)
    · exact .inr hmem
  · rw [hlookup] at hf'
    split at hf'
    · cases hf'
      exact hnonzero
    · exact hi.nonzero c f' hf'

theorem dropStake (hi : g.Indexed cfg epoch flight) {a : H}
    (hold : ∀ f ∈ g.stakes.lookup a,f.liabilityHash ∈ flight) :
    Indexed cfg epoch flight { g with stakes := g.stakes.erase a } := by
  have hlookup := Table.lookup_erase_ite g.stakes a
  refine ⟨hi.orderly.dropStake a,hi.listed,hi.nodup,hi.fresh,fun h' l hl hsec => ?_,
    fun c f' hf' => ?_⟩
  · rcases hi.referred h' l hl hsec with (⟨c,f',hf',hhash⟩ | hthawing) | hmem
    · by_cases hc : c = a
      · subst hc
        exact .inr (hhash ▸ hold f' hf')
      · exact .inl (.inl ⟨c,f',(hlookup c).trans ((if_neg hc).trans hf'),hhash⟩)
    · exact .inl (.inr hthawing)
    · exact .inr hmem
  · rw [hlookup] at hf'
    split at hf'
    · cases hf'
    · exact hi.nonzero c f' hf'

theorem setThawing (hi : g.Indexed cfg epoch flight) {a : H}
    {t : Table H (List (ThawingFunds H))} {ts : List (ThawingFunds H)}
    (ht : ∀ c,t.duplicates c = if c = a then ts else g.thawing.duplicates c)
    (hts : ∀ t ∈ ts,t.Formed cfg a) (hold : ∀ u ∈ g.thawing.duplicates a,
      (∃ v ∈ ts,v.liabilityHash = u.liabilityHash) ∨ u.liabilityHash ∈ flight) :
    Indexed cfg epoch flight { g with thawing := t } := by
  refine ⟨hi.orderly.setThawing ht hts,hi.listed,hi.nodup,hi.fresh,fun h' l hl hsec => ?_,
    hi.nonzero⟩
  rcases hi.referred h' l hl hsec with (hstaked | ⟨c,u,hu,rfl⟩) | hmem
  · exact .inl (.inl hstaked)
  · by_cases hc : c = a
    · subst hc
      refine (hold u hu).imp_left fun ⟨v,hv,heq⟩ => .inr ⟨c,v,?_,heq⟩
      rw [ht,if_pos rfl]
      exact hv
    · refine .inl (.inr ⟨c,u,?_,rfl⟩)
      rw [ht,if_neg hc]
      exact hu
  · exact .inr hmem

end Indexed
end GovernanceStore

namespace LiabilityManager

variable {epoch : Epoch} {flight : List H} {g : GovernanceStore H} {source : H}
  {info : AccountInfo H}

theorem wp_pruneSecondary_of_fresh (ho : g.Orderly cfg) (hfresh : g.Fresh epoch) :
    (pruneSecondaryLiabilities source info epoch).wp anyHalt (fun _ g' => g' = g) g := by
  refine wp_ite (fun _ => rfl) fun _ => ?_
  rw [wp_bind,wp_get,wp_bind]
  refine wp_forM (I := (· = g)) (fun h hh g' hg => ?_) rfl
  subst hg
  obtain ⟨l,hl,hsec,-⟩ := (ho.secondary source h).mp hh
  refine wp_expireSecondary hl (fun hexpired => ?_) fun _ => rfl
  exact absurd (GovernanceStore.fresh_iff.mp hfresh h l ⟨hl,hsec⟩) (BitVec.not_lt.mpr hexpired)

variable (hfree : cfg.CollisionFree)
include hfree

theorem indexed_createSecondaryLiability (hi : g.Indexed cfg epoch flight) {target : H}
    {amount : Amount} {expiration : Epoch} :
    (createSecondaryLiability cfg target source amount expiration info epoch).wp anyHalt
      (fun _ g' => g'.Indexed cfg epoch flight ∧ g.OnlyLiabilities g') g := by
  refine wp_ite (fun _ => trivial) fun hlater => ?_
  refine (wp_pruneSecondary_of_fresh hi.orderly hi.fresh).bind fun info' g1 heq => ?_
  subst heq
  rw [wp_bind,wp_get]
  refine wp_bind.mpr (wp_need (fun _ => trivial) fun b _ =>
    wp_ite (fun _ => ?_) fun _ => ⟨hi,.refl g1⟩)
  refine wp_bind.mpr ((wp_store cfg).mpr ?_)
  exact ⟨hi.putSecondary hfree rfl (BitVec.not_le.mp hlater),
    (g1.onlyLiabilities_putLiability cfg _).trans rfl⟩

theorem indexed_updateLiabilityAmount (hi : g.Indexed cfg epoch flight) (target source : H)
    (expiration : Epoch) (amount : Amount) :
    (updateLiabilityAmount (fundsHash cfg target source expiration) amount).wp anyHalt
      (fun _ g' => g'.Indexed cfg epoch flight ∧ g.OnlyLiabilities g') g := by
  refine wp_updateLiabilityAmount (fun _ => trivial) fun l hl => ⟨?_,rfl⟩
  exact hi.setAmount hl (hi.orderly.not_secondary_of_fundsHash hfree hl) amount

theorem indexed_deleteLiability (target source : H) (expiration : Epoch)
    (hi : g.Indexed cfg epoch (fundsHash cfg target source expiration::flight)) :
    (deleteLiability (fundsHash cfg target source expiration)).wp anyHalt
      (fun _ g' => g'.Indexed cfg epoch flight ∧ g.OnlyLiabilities g' ∧
        g'.masterLiabilities.lookup (fundsHash cfg target source expiration) = none) g := by
  refine wp_deleteLiability (fun _ => trivial) (fun _ _ _ => trivial) fun l hl => ⟨?_,rfl,?_⟩
  · exact hi.deletePrimary hl (hi.orderly.not_secondary_of_fundsHash hfree hl)
  · exact lookup_erase ..

end LiabilityManager

/-- The indices agree with the store while an account with the given stake acts. -/
def GovernanceStore.IndexedFor (cfg : Config H) (epoch : Epoch) (a : H)
    (st : Option (StakedFunds H)) (flight : List H) (g : GovernanceStore H) : Prop :=
  g.Indexed cfg epoch flight ∧ g.stakes.lookup a = st

namespace StakingManager

variable {epoch : Epoch} {a : H} {st : Option (StakedFunds H)} {flight : List H}
  {g g' : GovernanceStore H} {info : AccountInfo H}

theorem indexed_liabilities {flight' : List H} (hi : g.IndexedFor cfg epoch a st flight)
    (h : g'.Indexed cfg epoch flight') (hl : g.OnlyLiabilities g') :
    g'.IndexedFor cfg epoch a st flight' :=
  ⟨h,hl.stakes ▸ hi.2⟩

variable (hfree : cfg.CollisionFree)
include hfree

theorem indexed_storeStaked (hi : g.IndexedFor cfg epoch a st (f.liabilityHash::flight))
    (hf : f.Formed cfg a) (hnonzero : f.amount ≠ 0)
    (hst : ∀ f' ∈ st,f'.liabilityHash = f.liabilityHash) :
    (storeStaked f a).wp anyHalt
      (fun _ => GovernanceStore.IndexedFor cfg epoch a (some f) flight) g := by
  unfold storeStaked
  rw [wp_bind,wp_modify]
  have hput := hi.1.putStake hf hnonzero rfl (hi.2 ▸ hst)
  rw [hf]
  refine (indexed_updateLiabilityAmount hfree hput ..).imp fun _ g' h => ⟨h.1,?_⟩
  rw [h.2.stakes]
  exact AList.lookup_insert ..

theorem indexed_updateStaked (hi : g.IndexedFor cfg epoch a (some f) flight) (newAmount : Amount) :
    (updateStaked f a newAmount).wp anyHalt (fun _ => GovernanceStore.IndexedFor cfg epoch a
      (if 0 < newAmount then some { f with amount := newAmount } else none) flight) g := by
  have hf := hi.1.orderly.staked a f hi.2
  have hpush : g.IndexedFor cfg epoch a (some f) (f.liabilityHash::flight) := ⟨hi.1.push _,hi.2⟩
  refine wp_ite (fun hpos => ?_) fun hzero => ?_
  · rw [if_pos hpos]
    refine indexed_storeStaked (f := { f with amount := newAmount }) hfree hpush (hf.withAmount _)
      (fun hzero => ?_) (by simp)
    rw [show newAmount = 0 from hzero] at hpos
    exact BitVec.lt_irrefl _ hpos
  · rw [if_neg hzero,wp_bind,wp_modify]
    have hdrop : GovernanceStore.Indexed cfg epoch (f.liabilityHash::flight)
        { g with stakes := g.stakes.erase a } := hpush.1.dropStake (by
      rw [hi.2]
      rintro f' ⟨⟩
      exact List.mem_cons_self)
    rw [hf] at hdrop ⊢
    refine (indexed_deleteLiability hfree _ _ _ hdrop).imp fun _ g' h => ⟨h.1,?_⟩
    rw [h.2.1.stakes]
    exact lookup_erase ..

theorem indexed_storeThawing {t : ThawingFunds H}
    (hi : g.IndexedFor cfg epoch a st (t.liabilityHash::flight)) (ht : t.Formed cfg a) :
    (storeThawing cfg t a).wp anyHalt (fun _ => GovernanceStore.IndexedFor cfg epoch a st flight)
      g := by
  have hold := hi.1.orderly.thawing a
  -- the record that is stored refers to the liability
  have hland : ∀ table : Table H (List (ThawingFunds H)),
      (∀ c,c ≠ a → table.duplicates c = g.thawing.duplicates c) →
      (∀ u ∈ table.duplicates a,u.Formed cfg a) →
      (∀ u ∈ g.thawing.duplicates a,∃ v ∈ table.duplicates a,v.liabilityHash = u.liabilityHash) →
      (∃ v ∈ table.duplicates a,v.liabilityHash = t.liabilityHash) →
      GovernanceStore.Indexed cfg epoch flight { g with thawing := table } := by
    rintro table hother hts hkeep hnew
    refine (hi.1.setThawing (fun c => ?_) hts fun u hu => .inl (hkeep u hu)).land
      (.inr (.inl (.inr ⟨a,hnew⟩)))
    split
    · next hc => rw [hc]
    · next hc => exact hother c hc
  have hfinish : ∀ table target expiration amount,
      GovernanceStore.Indexed cfg epoch flight { g with thawing := table } →
      (updateLiabilityAmount (fundsHash cfg target a expiration) amount).wp anyHalt
        (fun _ => GovernanceStore.IndexedFor cfg epoch a st flight) { g with thawing := table } :=
    fun table target expiration amount h =>
      (indexed_updateLiabilityAmount hfree h ..).imp fun _ g' h' =>
        indexed_liabilities ⟨h,hi.2⟩ h'.1 h'.2
  unfold storeThawing
  rw [wp_bind,wp_get]
  dsimp only
  split
  · next i u hfind =>
    obtain ⟨j,-,hj⟩ := Option.bind_eq_some_iff.mp hfind
    obtain ⟨v,hv,heq⟩ := Option.map_eq_some_iff.mp hj
    cases heq
    have hu := hold u (List.mem_of_getElem? hv)
    have hlt := (List.getElem?_eq_some_iff.mp hv).1
    refine wp_ite (fun hhash => ?_) fun _ => trivial
    rw [wp_bind,wp_set,hu]
    rw [hu] at hhash
    have hmap : ((g.thawing.duplicates a).set i ⟨u.expirationEpoch,u.target,u.amount + t.amount,
        fundsHash cfg u.target a u.expirationEpoch⟩).map ThawingFunds.liabilityHash =
          (g.thawing.duplicates a).map ThawingFunds.liabilityHash := map_set_eq hv hu.symm
    refine hfinish _ _ _ _ (hland _ (fun c hc => ?_) ?_ ?_ ?_)
    · rw [Table.duplicates_insert,if_neg hc]
    · rw [Table.duplicates_insert,if_pos rfl]
      intro w hw
      rcases List.mem_or_eq_of_mem_set hw with hw | rfl
      · exact hold w hw
      · exact ThawingFunds.formed_mk ..
    · rw [Table.duplicates_insert,if_pos rfl]
      intro w hw
      have hmem := List.mem_map_of_mem (f := ThawingFunds.liabilityHash) hw
      rw [← hmap] at hmem
      exact List.mem_map.mp hmem
    · rw [Table.duplicates_insert,if_pos rfl]
      exact ⟨_,List.mem_set hlt _,hhash⟩
  · rw [wp_bind,wp_set,ht]
    refine hfinish _ _ _ _ (hland _ (fun c hc => ?_) (fun w hw => ?_) (fun w hw => ?_) ?_)
    · rw [Table.duplicates_putDuplicate,if_neg hc]
    · rcases Table.mem_putDuplicate.mp hw with ⟨-,rfl⟩ | hw
      · exact ht
      · exact hold w hw
    · exact ⟨w,Table.mem_putDuplicate.mpr (.inr hw),rfl⟩
    · exact ⟨t,Table.mem_putDuplicate.mpr (.inl ⟨rfl,rfl⟩),rfl⟩

theorem indexed_eraseThawing (hi : g.IndexedFor cfg epoch a st flight) (t : ThawingFunds H) :
    GovernanceStore.IndexedFor cfg epoch a st (t.liabilityHash::flight)
      { g with thawing := g.thawing.eraseDuplicate a t } := by
  refine ⟨(hi.1.push _).setThawing (fun _ => Table.duplicates_eraseDuplicate ..)
    (fun u hu => hi.1.orderly.thawing a u (List.mem_of_mem_erase hu)) fun u hu => ?_,hi.2⟩
  by_cases heq : u = t
  · exact .inr (heq ▸ List.mem_cons_self)
  · exact .inl ⟨u,(List.mem_erase_of_ne heq).mpr hu,rfl⟩

theorem indexed_updateThawing (hi : g.IndexedFor cfg epoch a st flight) {t : ThawingFunds H}
    (ht : t.Formed cfg a) (newAmount : Amount) :
    (updateThawing cfg t a newAmount).wp anyHalt
      (fun _ => GovernanceStore.IndexedFor cfg epoch a st flight) g := by
  have herase := indexed_eraseThawing hfree hi t
  unfold updateThawing
  rw [wp_bind,wp_modify]
  refine wp_ite (fun _ => ?_) fun _ => ?_
  · exact indexed_storeThawing (t := { t with amount := newAmount }) hfree herase (ht.withAmount _)
  · rw [ht] at herase ⊢
    exact (indexed_deleteLiability hfree _ _ _ herase.1).imp fun _ g' h =>
      indexed_liabilities herase h.1 h.2.1

def indexedly (cfg : Config H) (epoch : Epoch) (a : H) : Acting H := fun _ _ _ ks _ g =>
  g.Indexed cfg epoch (ks.map fun k => fundsHash cfg k.2 a k.1)

variable {g0 : GovernanceStore H} {target : H} {expiration : Epoch}

theorem indexedly_laws :
    Acting.Laws cfg g0 a anyHalt True False expiration (indexedly cfg epoch a) where
  other := trivial
  wellFormed _ := fun h => h.1.orderly.formed h.2
  distinct h := h.elim
  storeThawing := by
    rintro info st ts ks n g t ⟨hi,hholds⟩ - hf -
    have ht := hf trivial
    refine (indexed_storeThawing hfree ⟨?_,hholds.lookup_self⟩ ht).imp fun _ _ h => h.1
    rw [ht]
    exact hi

theorem indexedly_stakeLaws :
    Acting.StakeLaws cfg g0 a anyHalt True False epoch target (indexedly cfg epoch a) where
  toLaws := indexedly_laws hfree
  votingPower := trivial
  balance := trivial
  power h := h.1.power
  spend _ _ h _ _ := h
  createStaked h _ := h.1.putPrimary hfree (l := ⟨target,a,0,0,false⟩) rfl
  createThawing := by
    rintro info f ts ks n g ⟨hi,-⟩ -
    exact hi.putPrimary hfree (l := ⟨f.target,a,0,epoch + thawingPeriod,false⟩) rfl
  secondary h _ _ _ := (indexed_createSecondaryLiability hfree h.1).imp fun _ _ h => h.1
  updateStaked h _ := (indexed_updateStaked hfree ⟨h.1,h.2.lookup_self⟩ _).imp fun _ _ h => h.1
  storeStaked := by
    rintro info st ts ks n g f ⟨hi,hholds⟩ htarget hf - hnonzero hst hks
    have hf := hf trivial
    have hflight : g.Indexed cfg epoch [f.liabilityHash] := by
      rw [hf,htarget]
      rcases hks with rfl | ⟨rfl,-⟩
      · exact hi
      · exact hi.push _
    refine (indexed_storeStaked hfree ⟨hflight,hholds.lookup_self⟩ hf hnonzero
      fun f' hf' => ?_).imp fun _ _ h => h.1
    have hlookup : g.stakes.lookup a = some f' := hholds.lookup_self.trans hf'
    have hsame := (hst f' hf').resolve_right (hi.nonzero a f' hlookup)
    rw [hf,hi.orderly.staked a f' hlookup,hsame,htarget]
  dropStake := by
    rintro info st ts ks g ⟨hi,hholds⟩ hzero
    refine hi.dropStake fun f hf => absurd (hzero f ?_) (hi.nonzero a f hf)
    rw [← hholds.lookup_self]
    exact hf
  updateThawing h _ hf _ _ :=
    (indexed_updateThawing hfree ⟨h.1,h.2.lookup_self⟩ (hf trivial) _).imp fun _ _ h => h.1
  empty h _ := h.1

theorem indexedly_redateLaws : Acting.RedateLaws cfg g0 a anyHalt True False expiration
    (fun _ => True) (indexedly cfg epoch a) where
  toLaws := indexedly_laws hfree
  perm h hp := h.mono (hp.map _).subset
  redate := by
    rintro info st ts ks n g t ⟨hi,hholds⟩ - hf -
    have ht := hf trivial
    have hpush := hi.push t.liabilityHash
    rw [ht] at hpush ⊢
    refine (indexed_deleteLiability hfree _ _ _ hpush).imp fun _ g1 h1 => ?_
    obtain ⟨h1,-,hgone⟩ := h1
    have herase := indexed_eraseThawing (a := a) hfree ⟨h1.putPrimary hfree
      (l := ⟨t.target,a,t.amount,expiration,false⟩) rfl,rfl⟩ t
    -- the deleted liability is not there, unless it is the one that took its place
    refine herase.1.land ?_
    obtain ⟨amount,hlookup⟩ := GovernanceStore.lookup_putLiability hfree h1.orderly.keyed
      ⟨t.target,a,t.amount,expiration,false⟩
    rw [hlookup,ht]
    split
    · next heq => exact .inr (.inr (heq ▸ List.mem_cons_self))
    · exact .inl hgone

theorem indexed_stake {amount : Amount} (hi : g.Indexed cfg epoch [])
    (hkeeps : amount ≠ 0 ∨ ∃ f ∈ g.stakes.lookup a,f.target = target) :
    (stake cfg a info amount target epoch).wp anyHalt (fun _ g' => g'.Indexed cfg epoch []) g := by
  refine (Acting.on_stake (X := indexedly cfg epoch a) (indexedly_stakeLaws hfree)
    ⟨hi,.self g a⟩ False.elim).imp fun info' g' h => ?_
  obtain ⟨st,ts,ks,h,hks,-⟩ := h
  rcases hks with rfl | ⟨-,hzero,hother⟩
  · exact h.1
  · obtain ⟨f,hf,htarget⟩ := hkeeps.resolve_left (not_not.mpr hzero)
    exact absurd htarget (hother f hf)

theorem indexed_pruneThawing (hi : g.Indexed cfg epoch [])
    (hkeeps : epoch ≤ info.epochThawingUpdated ∨ ∀ t ∈ g.thawing.duplicates a,¬t.Pruneable epoch) :
    (pruneThawing a info epoch).wp anyHalt (fun _ g' => g'.Indexed cfg epoch []) g := by
  refine wp_ite (fun _ => hi) fun hlater => ?_
  have hfilter : (g.thawing.duplicates a).filter (fun t => ¬t.Pruneable epoch) =
      g.thawing.duplicates a := by
    refine List.filter_eq_self.mpr fun t ht => ?_
    simpa using hkeeps.resolve_left hlater t ht
  simp only [wp_bind,wp_get,wp_set]
  refine (AccountInfo.wp_setAvailableBalance trivial _ _ _ (.inr trivial) _).imp
    fun info' g' h => ?_
  rw [hfilter] at h
  exact (hi.setThawing (fun c => Table.duplicates_insert ..) (hi.orderly.thawing a)
    fun u hu => .inl ⟨u,hu,rfl⟩).power h.1

end StakingManager

/-- A stake of nothing is only set for its own target, and no thawing funds are released. -/
def FundsAction.Retains (s : Holdings H) (origin : H) (epoch : Epoch) : FundsAction H → Prop
  | .stake amount target => amount ≠ 0 ∨ ∃ f ∈ s.gov.stakes.lookup origin,f.target = target
  | .pruneThawing => epoch ≤ (s.info origin).epochThawingUpdated ∨
    ∀ t ∈ s.gov.thawing.duplicates origin,¬t.Pruneable epoch
  | _ => True

instance (s : Holdings H) (origin : H) (epoch : Epoch) (action : FundsAction H) :
    Decidable (action.Retains s origin epoch) :=
  match action with
  | .stake _ _ => inferInstanceAs (Decidable (_ ∨ _))
  | .setBalance _ => .isTrue trivial
  | .pruneThawing => inferInstanceAs (Decidable (_ ∨ _))
  | .markThawingAsFrozen _ => .isTrue trivial
  | .setExpirationOfFrozen _ => .isTrue trivial

/-- No secondary liability has expired, and the event takes away nothing one stays for. -/
def FundsEvent.Retains (e : FundsEvent H) (s : Holdings H) : Prop :=
  s.gov.Fresh e.epoch ∧ e.action.Retains s e.origin e.epoch

instance (e : FundsEvent H) (s : Holdings H) : Decidable (e.Retains s) :=
  inferInstanceAs (Decidable (_ ∧ _))

theorem FundsEvent.indexed_perform (hfree : cfg.CollisionFree) {e : FundsEvent H}
    (hs : s.gov.Indexed cfg clock []) (hretains : e.Retains s) :
    (e.perform cfg (s.info e.origin)).wp anyHalt (fun _ g' => g'.Indexed cfg e.epoch []) s.gov := by
  obtain ⟨hfresh,hretains⟩ := hretains
  have hi : s.gov.Indexed cfg e.epoch [] :=
    ⟨hs.orderly,hs.listed,hs.nodup,hfresh,hs.referred,hs.nonzero⟩
  have hself : (indexedly cfg e.epoch e.origin).On s.gov e.origin (s.info e.origin)
    (s.gov.stakes.lookup e.origin) (s.gov.thawing.duplicates e.origin) [] 0 s.gov :=
      ⟨hi,.self s.gov e.origin⟩
  unfold perform
  split
  · next amount target haction =>
    simp only [haction] at hretains
    exact indexed_stake hfree hi hretains
  · exact ((s.info e.origin).wp_setBalance trivial _ _ (.inr trivial) _).imp fun _ g' h => hi.power h.1
  · next haction =>
    simp only [haction] at hretains
    exact indexed_pruneThawing hfree hi hretains
  · exact (Acting.on_markThawingAsFrozen (indexedly_redateLaws hfree) hself
      fun _ _ _ _ => trivial).bind fun _ _ h => h.choose_spec.1
  · exact (Acting.on_setExpirationOfFrozen (indexedly_redateLaws hfree) hself
      (fun _ _ _ => trivial) False.elim).bind fun _ _ h => h.choose_spec.1

namespace Holdings

theorem step_indexed (hfree : cfg.CollisionFree) {s' : Holdings H} {e : FundsEvent H}
    {o : List Empty} (hs : s.gov.Indexed cfg clock []) (hretains : e.Retains s)
    (h : s.step cfg e = some (s',o)) : s'.gov.Indexed cfg e.epoch [] := by
  obtain ⟨info',g',hrun,rfl⟩ := step_eq_some cfg h
  exact (e.indexed_perform hfree hs hretains).run hrun

theorem exec_indexed (hfree : cfg.CollisionFree) {s' : Holdings H} {es : List (FundsEvent H)}
    {o : List Empty} (hs : s.gov.Indexed cfg clock [])
    (hrun : Machine.Along (step cfg) (fun s e => e.Retains s) s es)
    (h : Machine.exec (step cfg) s es = some (s',o)) :
    s'.gov.Indexed cfg ((es.map FundsEvent.epoch).getLastD clock) [] := by
  induction es generalizing s o clock with
  | nil =>
    cases h
    exact hs
  | cons e es ih =>
    obtain ⟨s1,o1,o2,h1,h2,-⟩ := Machine.exec_cons_eq_some h
    rw [List.map_cons,List.getLastD_cons]
    exact ih (step_indexed hfree hs hrun.1 h1) (hrun.2 s1 o1 h1) h2

/-- The hashes listed for a target and a source are those of their liabilities and secondary ones,
and funds refer to each liability, or it is a secondary one that has not expired. -/
theorem exec_index_consistent (hfree : cfg.CollisionFree) {s s' : Holdings H}
    {es : List (FundsEvent H)} {o : List Empty} {clock : Epoch} (hs : s.gov.Indexed cfg clock [])
    (hrun : Machine.Along (step cfg) (fun s e => e.Retains s) s es)
    (h : Machine.exec (step cfg) s es = some (s',o)) :
    (∀ target h,h ∈ s'.gov.repLiabilities.duplicates target ↔
      ∃ l,s'.gov.masterLiabilities.lookup h = some l ∧ l.target = target) ∧
    (∀ source h,h ∈ s'.gov.secondaryLiabilities.duplicates source ↔
      ∃ l,s'.gov.masterLiabilities.lookup h = some l ∧ l.isSecondary = true ∧ l.source = source) ∧
    ∀ h l,s'.gov.masterLiabilities.lookup h = some l → s'.gov.Refers h ∨
      l.isSecondary = true ∧ (es.map FundsEvent.epoch).getLastD clock < l.expirationEpoch := by
  have hi := exec_indexed hfree hs hrun h
  refine ⟨fun target h => ⟨hi.listed target h,?_⟩,hi.orderly.secondary,fun h l hl => ?_⟩
  · rintro ⟨l,hl,rfl⟩
    exact hi.orderly.listed h l hl
  · cases hsec : l.isSecondary with
    | true => exact .inr ⟨rfl,GovernanceStore.fresh_iff.mp hi.fresh h l ⟨hl,hsec⟩⟩
    | false => exact .inl ((hi.referred h l hl hsec).resolve_right List.not_mem_nil)

theorem sample_indexed : sample.gov.Indexed Config.sample 0 [] where
  orderly := sample_tidy.gov.orderly
  listed _ _ hh := absurd hh List.not_mem_nil
  nodup _ := List.nodup_nil
  fresh _ hmem := absurd hmem List.not_mem_nil
  referred h l hl := by cases hl
  nonzero a f hf := by cases hf

theorem exec_index_consistent_redirectRun :
    ∃ s' o,Machine.exec (step Config.sample) sample redirectRun = some (s',o) ∧
      s'.gov.secondaryLiabilities.duplicates 1 ≠ [] ∧
      ∀ h l,s'.gov.masterLiabilities.lookup h = some l → s'.gov.Refers h ∨
        l.isSecondary = true ∧ 11 < l.expirationEpoch := by
  have hrun : (Machine.exec (step Config.sample) sample redirectRun).map (fun r =>
      decide (r.1.gov.secondaryLiabilities.duplicates 1 ≠ [])) = some true := by decide +kernel
  obtain ⟨⟨s',o⟩,h,hlisted⟩ := Option.map_eq_some_iff.mp hrun
  have hsteps : Machine.checks (step Config.sample) (fun s e => decide (e.Retains s)) sample
      redirectRun = true := by decide +kernel
  refine ⟨s',o,h,of_decide_eq_true hlisted,?_⟩
  exact (exec_index_consistent Config.sample_collisionFree sample_indexed
    (by simpa using Machine.along_of_checks hsteps) h).2.2

/-- Account 1 moves its stake from account 2 to account 3 and, much later, to itself. -/
def expiryRun : List (FundsEvent ℕ) := redirectRun ++ [sampleEvent 60 (.stake 100 1)]

/-- Account 1 stakes to itself and unstakes; what has thawed is released. -/
def releaseRun : List (FundsEvent ℕ) :=
  [sampleEvent 10 (.stake 100 1),sampleEvent 10 (.stake 0 1),sampleEvent 52 .pruneThawing]

/-- An expired secondary liability stays listed, and that of released funds stays stored. -/
theorem exec_leaves_liabilities :
    (Machine.Along (step Config.sample) (fun s e => s.accepts Config.sample e = true) sample
        expiryRun ∧
      ∃ s' o,Machine.exec (step Config.sample) sample expiryRun = some (s',o) ∧
        Liability.hash Config.sample ⟨2,1,100,53,true⟩ ∈ s'.gov.repLiabilities.duplicates 2 ∧
        s'.gov.masterLiabilities.lookup (Liability.hash Config.sample ⟨2,1,100,53,true⟩) = none) ∧
    Machine.Along (step Config.sample) (fun s e => s.accepts Config.sample e = true) sample
      releaseRun ∧
    ∃ s' o,Machine.exec (step Config.sample) sample releaseRun = some (s',o) ∧
      s'.gov.masterLiabilities.lookup (fundsHash Config.sample 1 1 52) = some ⟨1,1,100,52,false⟩ ∧
      ¬s'.gov.Refers (fundsHash Config.sample 1 1 52) := by
  refine ⟨⟨Machine.along_of_checks (by decide +kernel),?_⟩,
    Machine.along_of_checks (by decide +kernel),?_⟩
  · have hrun : (Machine.exec (step Config.sample) sample expiryRun).map (fun r => decide
        (Liability.hash Config.sample ⟨2,1,100,53,true⟩ ∈ r.1.gov.repLiabilities.duplicates 2 ∧
          r.1.gov.masterLiabilities.lookup (Liability.hash Config.sample ⟨2,1,100,53,true⟩) =
            none)) = some true := by decide +kernel
    obtain ⟨⟨s',o⟩,h,heq⟩ := Option.map_eq_some_iff.mp hrun
    exact ⟨s',o,h,of_decide_eq_true heq⟩
  · have hrun : (Machine.exec (step Config.sample) sample releaseRun).map (fun r => decide
        (r.1.gov.masterLiabilities.lookup (fundsHash Config.sample 1 1 52) =
            some ⟨1,1,100,52,false⟩ ∧
          ¬r.1.gov.Refers (fundsHash Config.sample 1 1 52))) = some true := by decide +kernel
    obtain ⟨⟨s',o⟩,h,heq⟩ := Option.map_eq_some_iff.mp hrun
    exact ⟨s',o,h,of_decide_eq_true heq⟩

end Holdings

end LogosCore.Ledger
