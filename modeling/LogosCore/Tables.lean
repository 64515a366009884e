import Mathlib

/-! # Keyed tables and their totals

A table maps each key to at most one record. `total f` adds up what `f` reads off the
records, in any commutative monoid; writing one record changes what its key contributes and
nothing else. A table of sorted duplicates keeps several values under one key. -/
namespace LogosCore

open AList

abbrev Table (K V : Type) := AList (fun _ : K => V)

namespace Table

variable {K V : Type}

variable {t : Table K V}

section Total
variable {M : Type} [AddCommMonoid M]

def total (f : K → V → M) (t : Table K V) : M := (t.entries.map fun e => f e.1 e.2).sum

@[simp] theorem total_empty (f : K → V → M) : total f (∅ : Table K V) = 0 := rfl

theorem total_congr {f g : K → V → M} (h : ∀ e ∈ t.entries,f e.1 e.2 = g e.1 e.2) :
    total f t = total g t :=
  congrArg List.sum (List.map_congr_left h)

theorem total_eq_zero {f : K → V → M} (h : ∀ e ∈ t.entries,f e.1 e.2 = 0) : total f t = 0 := by
  refine List.sum_eq_zero fun x hx => ?_
  obtain ⟨e,he,rfl⟩ := List.mem_map.mp hx
  exact h e he

theorem total_le_total [Preorder M] [AddLeftMono M] {f g : K → V → M}
    (h : ∀ k v,f k v ≤ g k v) : total f t ≤ total g t :=
  have : AddRightMono M := addRightMono_of_addLeftMono M
  List.sum_le_sum fun e _ => h e.1 e.2

theorem map_total {N : Type} [AddCommMonoid N] (φ : M →+ N) (f : K → V → M) (t : Table K V) :
    total (fun k v => φ (f k v)) t = φ (total f t) := by
  simp only [total,map_list_sum,List.map_map,Function.comp_def]

variable [DecidableEq K]

theorem mem_of_lookup {k : K} {v : V} (h : t.lookup k = some v) : k ∈ t :=
  lookup_isSome.mp (by rw [h]; rfl)

/-- What the record under a key contributes; an absent record contributes nothing. -/
def amountAt (f : K → V → M) (t : Table K V) (k : K) : M := ((t.lookup k).map (f k)).getD 0

theorem amountAt_of_lookup {f : K → V → M} {k : K} {v : V}
    (h : t.lookup k = some v) : amountAt f t k = f k v := by
  simp [amountAt,h]

theorem amountAt_of_absent {f : K → V → M} {k : K}
    (h : t.lookup k = none) : amountAt f t k = 0 := by
  simp [amountAt,h]

private theorem sum_kerase (f : K → V → M) (k : K) (l : List (Sigma fun _ : K => V)) :
    ((l.kerase k).map fun e => f e.1 e.2).sum + ((l.dlookup k).map (f k)).getD 0 =
      (l.map fun e => f e.1 e.2).sum := by
  induction l with
  | nil => simp
  | cons e l ih =>
    obtain ⟨k',v⟩ := e
    by_cases h : k = k'
    · subst h
      simp [add_comm]
    · rw [List.kerase_cons_ne h,List.dlookup_cons_ne _ _ h]
      simp only [List.map_cons,List.sum_cons]
      rw [add_assoc,ih]

theorem total_erase (f : K → V → M) (t : Table K V) (k : K) :
    total f (t.erase k) + amountAt f t k = total f t :=
  sum_kerase f k t.entries

theorem total_insert (f : K → V → M) (t : Table K V) (k : K) (v : V) :
    total f (t.insert k v) = total f (t.erase k) + f k v := by
  exact add_comm _ _

theorem amountAt_insert_ne (f : K → V → M) (t : Table K V) {k k' : K} (v : V) (h : k' ≠ k) :
    amountAt f (t.insert k v) k' = amountAt f t k' := by
  simp only [amountAt,lookup_insert_ne h]

@[simp] theorem amountAt_insert (f : K → V → M) (t : Table K V) (k : K) (v : V) :
    amountAt f (t.insert k v) k = f k v := by
  simp only [amountAt,AList.lookup_insert,Option.map_some,Option.getD_some]

theorem amountAt_erase_ne (f : K → V → M) (t : Table K V) {k k' : K} (h : k' ≠ k) :
    amountAt f (t.erase k) k' = amountAt f t k' := by
  simp only [amountAt,lookup_erase_ne h]

section Cancel
variable {N : Type} [AddCancelCommMonoid N]

@[simp] theorem total_erase_insert_self (f : K → V → N) (t : Table K V) (k : K) (v : V) :
    total f ((t.insert k v).erase k) = total f (t.erase k) := by
  have herase := total_erase f (t.insert k v) k
  rw [total_insert,amountAt_insert] at herase
  exact add_right_cancel herase

theorem total_erase_insert_ne (f : K → V → N) (t : Table K V) {k k' : K} (v : V) (h : k' ≠ k) :
    total f ((t.insert k' v).erase k) + amountAt f t k' = total f (t.erase k) + f k' v := by
  refine add_right_cancel (b := amountAt f t k) ?_
  have hnew := total_erase f (t.insert k' v) k
  rw [total_insert,amountAt_insert_ne f t v h.symm] at hnew
  calc total f ((t.insert k' v).erase k) + amountAt f t k' + amountAt f t k
      = (total f ((t.insert k' v).erase k) + amountAt f t k) + amountAt f t k' := add_right_comm ..
    _ = (total f (t.erase k') + amountAt f t k') + f k' v := by rw [hnew,add_right_comm]
    _ = (total f (t.erase k) + amountAt f t k) + f k' v := by rw [total_erase,total_erase]
    _ = total f (t.erase k) + f k' v + amountAt f t k := add_right_comm ..

end Cancel

theorem amountAt_le_total (f : K → V → ℕ) (t : Table K V) (k : K) : amountAt f t k ≤ total f t := by
  have herase := total_erase f t k
  omega

end Total

variable [DecidableEq K]

theorem lookup_insert_ite (t : Table K V) (k : K) (v : V) (k' : K) :
    (t.insert k v).lookup k' = if k' = k then some v else t.lookup k' := by
  by_cases h : k' = k
  · subst h
    rw [if_pos rfl,AList.lookup_insert]
  · rw [if_neg h,lookup_insert_ne h]

theorem lookup_erase_ite (t : Table K V) (k k' : K) :
    (t.erase k).lookup k' = if k' = k then none else t.lookup k' := by
  by_cases h : k' = k
  · subst h
    rw [if_pos rfl,lookup_erase]
  · rw [if_neg h,lookup_erase_ne h]

theorem entries_perm {t t' : Table K V} (h : ∀ k,t'.lookup k = t.lookup k) :
    t'.entries.Perm t.entries :=
  List.lookup_ext t'.nodupKeys t.nodupKeys fun k v => by
    have hk := h k
    unfold AList.lookup at hk
    rw [hk]

omit [DecidableEq K] in
/-- The table with every record replaced by what `f` makes of it. -/
def mapValues {W : Type} (f : V → W) (t : Table K V) : Table K W :=
  ⟨t.entries.map fun e => ⟨e.1,f e.2⟩,by
    have hkeys : (t.entries.map fun e => (⟨e.1,f e.2⟩ : Sigma fun _ : K => W)).keys = t.keys := by
      simp [List.keys,AList.keys,Function.comp_def]
    rw [List.NodupKeys,hkeys]
    exact t.keys_nodup⟩

theorem forall_entries_iff {P : K → V → Prop} :
    (∀ e ∈ t.entries,P e.1 e.2) ↔ ∀ k v,t.lookup k = some v → P k v := by
  constructor
  · intro h k v hv
    exact h ⟨k,v⟩ (mem_lookup_iff.mp hv)
  · intro h e he
    exact h e.1 e.2 (mem_lookup_iff.mpr he)

section Listed

omit [DecidableEq K] in
/-- The records of a table in the order of their keys. -/
def listed (rank : K → ℕ) (t : Table K V) : List (K × V) :=
  (t.entries.map fun e => (e.1,e.2)).insertionSort fun p q => rank p.1 ≤ rank q.1

theorem mem_listed {rank : K → ℕ} {k : K} {v : V} :
    (k,v) ∈ listed rank t ↔ t.lookup k = some v := by
  rw [listed,List.mem_insertionSort,List.mem_map,← Option.mem_def,mem_lookup_iff]
  constructor
  · rintro ⟨e,he,heq⟩
    obtain ⟨rfl,rfl⟩ := Prod.mk.inj heq
    exact he
  · intro h
    exact ⟨_,h,rfl⟩

/-- Tables are listed alike exactly when the same is stored under each key. -/
theorem listed_eq_iff {rank : K → ℕ} (hrank : Function.Injective rank) {t t' : Table K V} :
    listed rank t = listed rank t' ↔ ∀ k,t.lookup k = t'.lookup k := by
  constructor
  · intro h k
    ext v
    have hmem : (k,v) ∈ listed rank t ↔ (k,v) ∈ listed rank t' := by rw [h]
    rwa [mem_listed,mem_listed] at hmem
  · intro h
    have hperm : (listed rank t).Perm (listed rank t') := (List.perm_insertionSort _ _).trans
        (((entries_perm h).map _).trans (List.perm_insertionSort _ _).symm)
    refine hperm.eq_of_pairwise (fun p q hp hq hpq hqp => ?_) (List.pairwise_insertionSort _ _)
      (List.pairwise_insertionSort _ _)
    have hkey : p.1 = q.1 := hrank (le_antisymm hpq hqp)
    have hp := mem_listed.mp hp
    have hq := mem_listed.mp hq
    rw [hkey,h,hq] at hp
    exact Prod.ext hkey (Option.some.inj hp).symm

end Listed

section Total
variable {M : Type} [AddCommMonoid M]

/-- A total only depends on what is stored under each key. -/
theorem total_ext (f : K → V → M) {t t' : Table K V} (h : ∀ k,t'.lookup k = t.lookup k) :
    total f t' = total f t :=
  ((entries_perm h).map _).sum_eq

theorem total_erase_congr (f : K → V → M) {t t' : Table K V} {k : K}
    (h : ∀ c,c ≠ k → t'.lookup c = t.lookup c) : total f (t'.erase k) = total f (t.erase k) := by
  refine total_ext f fun c => ?_
  rw [lookup_erase_ite,lookup_erase_ite]
  split
  · rfl
  · next hne => exact h c hne

theorem total_eq_amountAt {f : K → V → M} {k : K} (hf : ∀ c,c ≠ k → ∀ v,f c v = 0)
    (t : Table K V) : total f t = amountAt f t k := by
  have hzero : total f (t.erase k) = 0 := by
    refine total_eq_zero fun e he => ?_
    refine hf e.1 (fun heq => ?_) e.2
    have hmem : e.1 ∈ t.erase k := mem_keys.mp (List.mem_map_of_mem he)
    exact (mem_erase.mp hmem).1 heq
  rw [← total_erase f t k,hzero,zero_add]

end Total

/-- A table whose records contribute no more than another's has no greater total. -/
theorem total_le_total_of_amountAt {W : Type} {f : K → V → ℕ} {g : K → W → ℕ} (t : Table K V)
    (t' : Table K W) (h : ∀ k,amountAt f t k ≤ amountAt g t' k) : total f t ≤ total g t' := by
  induction t using insertRec generalizing t' with
  | H0 => exact Nat.zero_le _
  | IH k v t hk ih =>
    have habsent : t.lookup k = none := lookup_eq_none.mpr hk
    have herase : total f (t.erase k) = total f t := by
      rw [← total_erase f t k,amountAt_of_absent habsent,Nat.add_zero]
    have hown := h k
    have hrest := ih (t'.erase k) fun c => ?_
    · rw [total_insert,herase,← total_erase g t' k]
      rw [amountAt_insert] at hown
      exact Nat.add_le_add hrest hown
    · by_cases hc : c = k
      · rw [hc,amountAt_of_absent habsent]
        exact Nat.zero_le _
      · have hother := h c
        rwa [amountAt_insert_ne f t v hc,← amountAt_erase_ne g t' hc] at hother

/-- The values under a key of a table with sorted duplicates. -/
def duplicates (t : Table K (List V)) (k : K) : List V := (t.lookup k).getD []

/-- Add a value under a key in the order of `le`; a value already there is not repeated. -/
def putDuplicate [DecidableEq V] (le : V → V → Prop) [DecidableRel le] (t : Table K (List V))
    (k : K) (v : V) : Table K (List V) :=
  if v ∈ t.duplicates k then t else t.insert k ((t.duplicates k).orderedInsert le v)

def eraseDuplicate [DecidableEq V] (t : Table K (List V)) (k : K) (v : V) : Table K (List V) :=
  t.insert k ((t.duplicates k).erase v)

@[simp] theorem duplicates_insert (t : Table K (List V)) (k : K) (vs : List V) (k' : K) :
    duplicates (t.insert k vs) k' = if k' = k then vs else t.duplicates k' := by
  by_cases h : k' = k
  · subst h
    simp [duplicates]
  · simp [duplicates,h,lookup_insert_ne h]

@[simp] theorem duplicates_eraseDuplicate [DecidableEq V] (t : Table K (List V)) (k : K) (v : V)
    (k' : K) : duplicates (t.eraseDuplicate k v) k' =
      if k' = k then (t.duplicates k).erase v else t.duplicates k' :=
  duplicates_insert ..

theorem mem_duplicates {t : Table K (List V)} {k : K} {v : V} :
    v ∈ t.duplicates k ↔ ∃ vs,t.lookup k = some vs ∧ v ∈ vs := by
  unfold duplicates
  cases t.lookup k with
  | none => simp
  | some vs => simp

theorem duplicates_putDuplicate [DecidableEq V] (le : V → V → Prop) [DecidableRel le]
    (t : Table K (List V)) (k : K) (v : V) (k' : K) :
    duplicates (t.putDuplicate le k v) k' = if k' = k then if v ∈ t.duplicates k then t.duplicates k
        else (t.duplicates k).orderedInsert le v
      else t.duplicates k' := by
  unfold putDuplicate
  by_cases hmem : v ∈ t.duplicates k
  · simp only [if_pos hmem]
    by_cases h : k' = k
    · rw [if_pos h,h]
    · rw [if_neg h]
  · simp only [if_neg hmem,duplicates_insert]

theorem mem_putDuplicate [DecidableEq V] {le : V → V → Prop} [DecidableRel le]
    {t : Table K (List V)} {k k' : K} {v v' : V} :
    v' ∈ duplicates (t.putDuplicate le k v) k' ↔ k' = k ∧ v' = v ∨ v' ∈ t.duplicates k' := by
  rw [duplicates_putDuplicate]
  by_cases h : k' = k
  · subst h
    by_cases hmem : v ∈ t.duplicates k'
    · simp only [↓reduceIte,if_pos hmem,true_and]
      exact ⟨.inr,fun h => h.elim (fun heq => heq ▸ hmem) id⟩
    · simp only [↓reduceIte,if_neg hmem,true_and,List.mem_orderedInsert]
  · rw [if_neg h]
    simp only [h,false_and,false_or]

theorem nodup_putDuplicate [DecidableEq V] {le : V → V → Prop} [DecidableRel le]
    {t : Table K (List V)} (h : ∀ k,(t.duplicates k).Nodup) (k : K) (v : V) (k' : K) :
    (duplicates (t.putDuplicate le k v) k').Nodup := by
  rw [duplicates_putDuplicate]
  split
  · split
    · exact h k
    · next hmem =>
      rw [(List.perm_orderedInsert _ _ _).nodup_iff]
      exact List.nodup_cons.mpr ⟨hmem,h k⟩
  · exact h k'

theorem nodup_eraseDuplicate [DecidableEq V] {t : Table K (List V)}
    (h : ∀ k,(t.duplicates k).Nodup) (k : K) (v : V) (k' : K) :
    (duplicates (t.eraseDuplicate k v) k').Nodup := by
  rw [duplicates_eraseDuplicate]
  split
  · exact (h k).erase v
  · exact h k'

/-- Where a value is inserted does not matter to a relation that holds both ways for it. -/
theorem pairwise_orderedInsert {R le : V → V → Prop} [DecidableRel le] {v : V} {vs : List V}
    (h : vs.Pairwise R) (hv : ∀ u ∈ vs,R v u ∧ R u v) : (vs.orderedInsert le v).Pairwise R := by
  induction vs with
  | nil => exact List.pairwise_singleton R v
  | cons u vs ih =>
    obtain ⟨hu,hrest⟩ := List.pairwise_cons.mp h
    rw [List.orderedInsert_cons]
    split
    · exact List.pairwise_cons.mpr ⟨fun w hw => (hv w hw).1,h⟩
    · refine List.pairwise_cons.mpr ⟨fun w hw => ?_,ih hrest fun w hw => hv w (.tail _ hw)⟩
      rcases (List.mem_orderedInsert le).mp hw with rfl | hw
      · exact (hv u List.mem_cons_self).2
      · exact hu w hw

end Table
end LogosCore
