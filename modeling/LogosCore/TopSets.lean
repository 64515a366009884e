import LogosCore.Tables

/-! # The greatest entries of a table

`Top gt k all top` says that the table `top` holds the `k` greatest entries of the table `all`, or
all of them where there are fewer. The lemmas follow the writes that keep this: an entry that
joins while there is room, one that replaces the least, one that is rewritten in place and one that
stays outside. -/
namespace LogosCore.Table

open AList

variable {K V : Type} [DecidableEq K]

def card (t : Table K V) : ℕ := t.keys.length

omit [DecidableEq K] in
@[simp] theorem card_empty : card (∅ : Table K V) = 0 := rfl

variable {t : Table K V}

theorem card_insert_of_mem {a : K} (h : a ∈ t) (v : V) : card (t.insert a v) = card t := by
  have hmem : a ∈ t.keys := h
  simp only [card,keys_insert,List.length_cons,List.length_erase_of_mem hmem]
  exact Nat.sub_add_cancel (List.length_pos_of_mem hmem)

theorem card_insert_of_notMem {a : K} (h : a ∉ t) (v : V) : card (t.insert a v) = card t + 1 := by
  have hmem : a ∉ t.keys := h
  simp only [card,keys_insert,List.length_cons,List.erase_of_not_mem hmem]

theorem card_erase_of_mem {a : K} (h : a ∈ t) : card (t.erase a) + 1 = card t := by
  have hmem : a ∈ t.keys := h
  simp only [card,keys_erase,List.length_erase_of_mem hmem]
  exact Nat.sub_add_cancel (List.length_pos_of_mem hmem)

/-- Tables of the same size have the same keys if one has all keys of the other. -/
theorem mem_of_card_le {s : Table K V} (hsub : ∀ a ∈ s,a ∈ t) (hcard : card t ≤ card s) {a : K}
    (ha : a ∈ t) : a ∈ s := by
  have hkeys : s.keys.toFinset ⊆ t.keys.toFinset := by
    intro b hb
    rw [List.mem_toFinset] at hb ⊢
    exact hsub b hb
  have hle : t.keys.toFinset.card ≤ s.keys.toFinset.card := by
    rw [List.toFinset_card_of_nodup t.keys_nodup,List.toFinset_card_of_nodup s.keys_nodup]
    exact hcard
  have heq := Finset.eq_of_subset_of_card_le hkeys hle
  have hmem : a ∈ t.keys.toFinset := List.mem_toFinset.mpr ha
  rw [← heq] at hmem
  exact List.mem_toFinset.mp hmem

/-- Different keys are always ranked, one way only. -/
structure Ranked (gt : K × V → K × V → Prop) : Prop where
  irrefl : ∀ p,¬gt p p
  trans : ∀ {p q r},gt p q → gt q r → gt p r
  total : ∀ {p q : K × V},p.1 ≠ q.1 → gt p q ∨ gt q p

structure Top (gt : K × V → K × V → Prop) (k : ℕ) (all top : Table K V) : Prop where
  entry : ∀ {a c},top.lookup a = some c → all.lookup a = some c
  above : ∀ {a c b d},top.lookup a = some c → all.lookup b = some d → b ∉ top → gt (a,c) (b,d)
  size : card top = min k (card all)

structure Least (gt : K × V → K × V → Prop) (t : Table K V) (m : K × V) : Prop where
  entry : t.lookup m.1 = some m.2
  below : ∀ {a c},t.lookup a = some c → a ≠ m.1 → gt (a,c) m

section Top

variable {gt : K × V → K × V → Prop} {k : ℕ} {all top : Table K V} {a : K} {c : V} {m : K × V}

/-- Nothing is at the top only of nothing. -/
theorem top_empty_iff (hk : 0 < k) : Top gt k all ∅ ↔ ∀ a,a ∉ all := by
  constructor
  · intro h a ha
    have hsize := h.size
    have hpos : 0 < card all := List.length_pos_of_mem ha
    rw [card_empty] at hsize
    omega
  · intro h
    have hkeys : all.keys = [] := List.eq_nil_iff_forall_not_mem.mpr h
    refine ⟨fun h' => (by cases h'),fun h' => (by cases h'),?_⟩
    simp [card,hkeys]

theorem Top.mem_all (h : Top gt k all top) (ha : a ∈ top) : a ∈ all := by
  obtain ⟨c,hc⟩ := Option.isSome_iff_exists.mp (lookup_isSome.mpr ha)
  exact mem_of_lookup (h.entry hc)

/-- As long as there is room every entry is at the top. -/
theorem Top.mem_top (h : Top gt k all top) (hroom : card top < k) (ha : a ∈ all) : a ∈ top := by
  have hcard := h.size
  exact mem_of_card_le (fun _ => h.mem_all) (by omega) ha

theorem Top.join (h : Top gt k all top) (hroom : card top < k) (ha : a ∉ top) :
    Top gt k (all.insert a c) (top.insert a c) := by
  have hnew : a ∉ all := fun hall => ha (h.mem_top hroom hall)
  refine ⟨fun {b d} hb => ?_,fun {b d b' d'} _ hb' hout => ?_,?_⟩
  · rw [lookup_insert_ite] at hb ⊢
    split
    · next heq => simpa [heq] using hb
    · next hne => exact h.entry (by simpa [hne] using hb)
  · rw [mem_insert,not_or] at hout
    rw [lookup_insert_ne hout.1] at hb'
    exact absurd (h.mem_top hroom (mem_of_lookup hb')) hout.2
  · have hcard := h.size
    rw [card_insert_of_notMem ha,card_insert_of_notMem hnew]
    omega

theorem Top.rewrite (h : Top gt k all top) (ha : a ∈ top)
    (habove : ∀ b d,all.lookup b = some d → b ∉ top → gt (a,c) (b,d)) :
    Top gt k (all.insert a c) (top.insert a c) := by
  refine ⟨fun {b d} hb => ?_,fun {b d b' d'} hb hb' hout => ?_,?_⟩
  · rw [lookup_insert_ite] at hb ⊢
    split
    · next heq => simpa [heq] using hb
    · next hne => exact h.entry (by simpa [hne] using hb)
  · rw [mem_insert,not_or] at hout
    rw [lookup_insert_ne hout.1] at hb'
    rw [lookup_insert_ite] at hb
    split at hb
    · next heq =>
      cases hb
      rw [heq]
      exact habove b' d' hb' hout.2
    · exact h.above hb hb' hout.2
  · rw [card_insert_of_mem ha,card_insert_of_mem (h.mem_all ha)]
    exact h.size

/-- Conversely, a rewritten entry that is still at the top is above all that are outside. -/
theorem Top.above_of_rewrite (h : Top gt k (all.insert a c) (top.insert a c)) (ha : a ∈ top) {b : K}
    {d : V} (hb : all.lookup b = some d) (hout : b ∉ top) : gt (a,c) (b,d) := by
  have hne : b ≠ a := fun heq => hout (heq ▸ ha)
  refine h.above (AList.lookup_insert _) ?_ ?_
  · rw [lookup_insert_ne hne]
    exact hb
  · rw [mem_insert,not_or]
    exact ⟨hne,hout⟩

/-- An entry that is below the least at the top stays outside. -/
theorem Top.stay (h : Top gt k all top) (hgt : Ranked gt) (hfull : card top = k) (ha : a ∉ top)
    (hm : Least gt top m) (hbelow : gt m (a,c)) : Top gt k (all.insert a c) top := by
  have hall := h.size
  refine ⟨fun {b d} hb => ?_,fun {b d b' d'} hb hb' hout => ?_,?_⟩
  · have hne : b ≠ a := fun heq => ha (heq ▸ mem_of_lookup hb)
    rw [lookup_insert_ne hne]
    exact h.entry hb
  · rw [lookup_insert_ite] at hb'
    split at hb'
    · next heq =>
      cases hb'
      rw [heq]
      by_cases hbm : b = m.1
      · have heq : (b,d) = m := by
          have hentry := hm.entry
          rw [← hbm,hb] at hentry
          cases hentry
          rw [hbm]
        rw [heq]
        exact hbelow
      · exact hgt.trans (hm.below hb hbm) hbelow
    · exact h.above hb hb' hout
  · by_cases hnew : a ∈ all
    · rw [card_insert_of_mem hnew]
      exact h.size
    · rw [card_insert_of_notMem hnew]
      omega

/-- An entry that is above the least at the top takes its place. -/
theorem Top.replace (h : Top gt k all top) (hgt : Ranked gt) (hfull : card top = k) (ha : a ∉ top)
    (hm : Least gt top m) (habove : gt (a,c) m) :
    Top gt k (all.insert a c) ((top.erase m.1).insert a c) := by
  have hall := h.size
  have hmem : m.1 ∈ top := mem_of_lookup hm.entry
  have hout : a ∉ top.erase m.1 := fun hmem => ha (mem_erase.mp hmem).2
  refine ⟨fun {b d} hb => ?_,fun {b d b' d'} hb hb' hout' => ?_,?_⟩
  · rw [lookup_insert_ite] at hb ⊢
    split
    · next heq => simpa [heq] using hb
    · next hne =>
      simp only [hne,if_false,lookup_erase_ite] at hb
      split at hb
      · cases hb
      · exact h.entry hb
  · -- what is outside now was outside before, or is what has been replaced
    rw [mem_insert,not_or,mem_erase,not_and] at hout'
    rw [lookup_insert_ne hout'.1] at hb'
    have hleast : gt (b,d) m ∧ b ≠ m.1 := by
      rw [lookup_insert_ite] at hb
      split at hb
      · next heq =>
        cases hb
        rw [heq]
        exact ⟨habove,fun hbm => ha (hbm ▸ hmem)⟩
      · rw [lookup_erase_ite] at hb
        split at hb
        · cases hb
        · next hne => exact ⟨hm.below hb hne,hne⟩
    by_cases hbm : b' = m.1
    · have heq : (b',d') = m := by
        have hentry := h.entry hm.entry
        rw [← hbm,hb'] at hentry
        cases hentry
        rw [hbm]
      rw [heq]
      exact hleast.1
    · exact hgt.trans hleast.1 (h.above hm.entry hb' (hout'.2 hbm))
  · rw [card_insert_of_notMem hout]
    have herase := card_erase_of_mem hmem
    by_cases hnew : a ∈ all
    · rw [card_insert_of_mem hnew]
      omega
    · rw [card_insert_of_notMem hnew]
      omega

end Top

section Least

variable {gt : K × V → K × V → Prop} [DecidableRel gt]

/-- The least of some entries, of which the first is given. -/
def leastOf (gt : K × V → K × V → Prop) [DecidableRel gt] (p : K × V) (ps : List (K × V)) : K × V :=
  ps.foldl (fun least p => if gt p least then least else p) p

omit [DecidableEq K] in
theorem leastOf_spec (hgt : Ranked gt) {p : K × V} {ps : List (K × V)}
    (hnodup : ((p::ps).map Prod.fst).Nodup) :
    leastOf gt p ps ∈ p::ps ∧ ∀ q ∈ p::ps,q = leastOf gt p ps ∨ gt q (leastOf gt p ps) := by
  induction ps generalizing p with
  | nil => simp [leastOf]
  | cons q ps ih =>
    simp only [List.map_cons,List.nodup_cons,List.mem_cons,not_or] at hnodup
    obtain ⟨⟨hne,hp⟩,hq,hps⟩ := hnodup
    have hrest : leastOf gt p (q::ps) = leastOf gt (if gt q p then p else q) ps := rfl
    -- of the first two entries one goes on and the other is above it
    have hpair : ∃ low high,(if gt q p then p else q) = low ∧ gt high low ∧
        ((low::ps).map Prod.fst).Nodup ∧ (∀ r,r ∈ p::q::ps ↔ r = high ∨ r ∈ low::ps) := by
      by_cases hqp : gt q p
      · refine ⟨p,q,if_pos hqp,hqp,List.nodup_cons.mpr ⟨hp,hps⟩,fun r => ?_⟩
        simp only [List.mem_cons]
        tauto
      · refine ⟨q,p,if_neg hqp,(hgt.total hne).resolve_right hqp,List.nodup_cons.mpr ⟨hq,hps⟩,
          fun r => ?_⟩
        simp only [List.mem_cons]
    obtain ⟨low,high,hlow,habove,hnodup,hmem⟩ := hpair
    rw [hrest,hlow]
    obtain ⟨hleast,hbelow⟩ := ih hnodup
    refine ⟨(hmem _).mpr (.inr hleast),fun r hr => ?_⟩
    rcases (hmem r).mp hr with rfl | hr
    · rcases hbelow low List.mem_cons_self with heq | hgt'
      · exact .inr (heq ▸ habove)
      · exact .inr (hgt.trans habove hgt')
    · exact hbelow r hr

/-- The least of the entries of a table in the order in which they are stored. -/
theorem least_leastOf (hgt : Ranked gt) {p : K × V} {ps : List (K × V)}
    (h : (t.entries.map fun e => (e.1,e.2)) = p::ps) : Least gt t (leastOf gt p ps) := by
  have hentries : ∀ a c,t.lookup a = some c ↔ (a,c) ∈ p::ps := by
    intro a c
    rw [← h,← Option.mem_def,mem_lookup_iff,List.mem_map]
    constructor
    · intro hmem
      exact ⟨_,hmem,rfl⟩
    · rintro ⟨e,he,heq⟩
      obtain ⟨rfl,rfl⟩ := Prod.mk.inj heq
      exact he
  have hnodup : ((p::ps).map Prod.fst).Nodup := by
    rw [← h,List.map_map]
    exact t.keys_nodup
  obtain ⟨hmem,hbelow⟩ := leastOf_spec hgt hnodup
  refine ⟨(hentries _ _).mpr hmem,fun {a c} hc hne => ?_⟩
  refine (hbelow _ ((hentries a c).mp hc)).resolve_left fun heq => hne ?_
  rw [← heq]

end Least
end LogosCore.Table
