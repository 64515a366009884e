import LogosCore.Tables

/-! # Chains of records

Records that each hold the key of the one before form a chain; the walk along it ends at a key
that stands for no record. -/
namespace LogosCore.Table

open AList Finset

variable {K V : Type} [DecidableEq K]

/-- The records the walk from a key passes, down to the end of the chain. -/
def Visits (t : Table K V) (link : V → K) (stop : K) : K → List V → Prop
  | k,[] => k = stop
  | k,v::vs => k ≠ stop ∧ t.lookup k = some v ∧ Visits t link stop (link v) vs

variable {t : Table K V} {link : V → K} {stop k : K} {v : V} {vs : List V}

theorem Visits.unique {ws : List V} (h : t.Visits link stop k vs) (h' : t.Visits link stop k ws) :
    vs = ws := by
  induction vs generalizing k ws with
  | nil =>
    cases ws with
    | nil => rfl
    | cons w ws => exact absurd h h'.1
  | cons v vs ih =>
    cases ws with
    | nil => exact absurd h' h.1
    | cons w ws =>
      obtain rfl : v = w := Option.some.inj (h.2.1.symm.trans h'.2.1)
      rw [ih h.2.2 h'.2.2]

theorem Visits.stored (h : t.Visits link stop k vs) (hv : v ∈ vs) : ∃ k',t.lookup k' = some v := by
  induction vs generalizing k with
  | nil => cases hv
  | cons w ws ih =>
    rcases List.mem_cons.mp hv with rfl | hv
    · exact ⟨k,h.2.1⟩
    · exact ih h.2.2 hv

/-- A new record does not change the walks there are. -/
theorem Visits.insert {k' : K} (h : t.Visits link stop k vs) (hnew : k' ∉ t) (v' : V) :
    Visits (t.insert k' v') link stop k vs := by
  induction vs generalizing k with
  | nil => exact h
  | cons v vs ih =>
    obtain ⟨hne,hlookup,hrest⟩ := h
    have hk : k ≠ k' := by
      rintro rfl
      rw [lookup_eq_none.mpr hnew] at hlookup
      cases hlookup
    exact ⟨hne,(lookup_insert_ne hk).trans hlookup,ih hrest⟩

theorem Visits.cons (h : t.Visits link stop (link v) vs) (hnew : k ∉ t) (hne : k ≠ stop) :
    Visits (t.insert k v) link stop k (v::vs) :=
  ⟨hne,AList.lookup_insert t,h.insert hnew v⟩

theorem Visits.erase {k' : K} (h : t.Visits link stop k vs)
    (hlong : ∀ ws,t.Visits link stop k' ws → vs.length < ws.length) :
    Visits (t.erase k') link stop k vs := by
  induction vs generalizing k with
  | nil => exact h
  | cons v vs ih =>
    have hk : k ≠ k' := by
      rintro rfl
      exact absurd (hlong _ h) (lt_irrefl _)
    refine ⟨h.1,(lookup_erase_ne hk).trans h.2.1,ih h.2.2 fun ws hws => ?_⟩
    exact lt_of_le_of_lt (Nat.le_succ _) (hlong ws hws)

/-- A chain has at most as many records as the table. -/
theorem Visits.length_le (h : t.Visits link stop k vs) : vs.length ≤ t.entries.length := by
  induction vs generalizing k t with
  | nil => exact Nat.zero_le _
  | cons v vs ih =>
    obtain ⟨hne,hlookup,hrest⟩ := h
    have hmem : k ∈ t := Table.mem_of_lookup hlookup
    obtain ⟨w,l1,l2,-,hentries,herase⟩ := List.exists_of_kerase hmem
    have hlength : t.entries.length = (t.erase k).entries.length + 1 := by
      change t.entries.length = (t.entries.kerase k).length + 1
      rw [herase,hentries]
      simp only [List.length_append,List.length_cons]
      omega
    have hshort : Visits (t.erase k) link stop (link v) vs := by
      refine hrest.erase fun ws hws => ?_
      have hwhole : t.Visits link stop k (v::vs) := ⟨hne,hlookup,hrest⟩
      rw [← hwhole.unique hws]
      exact Nat.lt_succ_self _
    rw [hlength]
    exact Nat.succ_le_succ (ih hshort)

/-- Follow the links while there is a record and `goOn` lets it pass: the records passed and the key
where the walk stops. One that outlasts its fuel is a circle. -/
def walk (t : Table K V) (link : V → K) (goOn : K → V → Bool) : ℕ → K → Option (List V × K)
  | 0,_ => none
  | fuel+1,k =>
    match t.lookup k with
    | none => some ([],k)
    | some v =>
      if goOn k v then (walk t link goOn fuel (link v)).map fun r => (v::r.1,r.2) else some ([],k)

/-- With enough fuel the walk passes the whole chain. -/
theorem Visits.walk {goOn : K → V → Bool} {fuel : ℕ} (h : t.Visits link stop k vs)
    (hgoOn : ∀ k v,goOn k v = decide (k ≠ stop)) (hfuel : vs.length < fuel) :
    t.walk link goOn fuel k = some (vs,stop) := by
  induction vs generalizing k fuel with
  | nil =>
    obtain rfl : k = stop := h
    obtain ⟨n,rfl⟩ := Nat.exists_eq_succ_of_ne_zero (Nat.ne_of_gt hfuel)
    unfold Table.walk
    cases t.lookup k with
    | none => rfl
    | some v => simp [hgoOn]
  | cons v vs ih =>
    obtain ⟨hne,hlookup,hrest⟩ := h
    obtain ⟨n,rfl⟩ := Nat.exists_eq_succ_of_ne_zero (Nat.ne_of_gt (Nat.zero_lt_of_lt hfuel))
    rw [Table.walk,hlookup]
    simp [hgoOn,hne,ih hrest (Nat.lt_of_succ_lt_succ hfuel)]

/-- What a walk that has come to its end has passed. -/
def Passed (t : Table K V) (link : V → K) (goOn : K → V → Bool) : K → List V → K → Prop
  | k,[],k' => k = k' ∧ ∀ v,t.lookup k = some v → goOn k v = false
  | k,v::vs,k' => t.lookup k = some v ∧ goOn k v = true ∧ Passed t link goOn (link v) vs k'

variable {goOn : K → V → Bool} {fuel : ℕ} {k' : K}

theorem passed_of_walk (h : t.walk link goOn fuel k = some (vs,k')) :
    t.Passed link goOn k vs k' := by
  induction fuel generalizing k vs with
  | zero => cases h
  | succ fuel ih =>
    rw [Table.walk] at h
    cases hv : t.lookup k with
    | none =>
      rw [hv] at h
      obtain ⟨rfl,rfl⟩ := Prod.mk.inj (Option.some.inj h)
      exact ⟨rfl,fun v hv' => by cases hv.symm.trans hv'⟩
    | some v =>
      simp only [hv] at h
      split at h
      · next hgo =>
        obtain ⟨r,hr,heq⟩ := Option.map_eq_some_iff.mp h
        obtain ⟨rfl,rfl⟩ := Prod.mk.inj heq
        exact ⟨hv,hgo,ih hr⟩
      · next hgo =>
        obtain ⟨rfl,rfl⟩ := Prod.mk.inj (Option.some.inj h)
        refine ⟨rfl,fun v' hv' => ?_⟩
        obtain rfl : v = v' := Option.some.inj (hv.symm.trans hv')
        exact Bool.eq_false_iff.mpr hgo

theorem exists_walk {α : Type} [Preorder α] (μ : V → α)
    (hup : ∀ k v w,t.lookup k = some v → t.lookup (link v) = some w → μ v < μ w) (k : K) :
    ∃ r,t.walk link goOn (t.entries.length + 1) k = some r := by
  classical
  -- the records above the next one are fewer than those above this one
  have hmain : ∀ fuel k,(∀ v,t.lookup k = some v →
      (t.entries.toFinset.filter fun e => μ v ≤ μ e.2).card < fuel) → 0 < fuel →
        ∃ r,t.walk link goOn fuel k = some r := by
    intro fuel
    induction fuel with
    | zero => exact fun k _ hpos => absurd hpos (lt_irrefl 0)
    | succ fuel ih =>
      intro k hcount _
      rw [Table.walk]
      cases hv : t.lookup k with
      | none => exact ⟨_,rfl⟩
      | some v =>
        by_cases hgo : goOn k v = true
        · simp only [hgo,↓reduceIte]
          have hself : (⟨k,v⟩ : Sigma fun _ : K => V) ∈
              t.entries.toFinset.filter fun e => μ v ≤ μ e.2 :=
            mem_filter.mpr
              ⟨List.mem_toFinset.mpr (mem_lookup_iff.mp hv),le_refl _⟩
          have hlt := hcount v hv
          have hrest : ∃ r,t.walk link goOn fuel (link v) = some r := by
            refine ih (link v) (fun w hw => ?_) ?_
            · have hvw := hup k v w hv hw
              refine lt_of_lt_of_le (card_lt_card ?_) (Nat.lt_succ_iff.mp hlt)
              refine (ssubset_iff_of_subset fun e he => ?_).mpr ⟨_,hself,fun hmem => ?_⟩
              · obtain ⟨hmem,hle⟩ := mem_filter.mp he
                exact mem_filter.mpr ⟨hmem,hvw.le.trans hle⟩
              · exact absurd (mem_filter.mp hmem).2 hvw.not_ge
            · exact lt_of_lt_of_le (card_pos.mpr ⟨_,hself⟩) (Nat.lt_succ_iff.mp hlt)
          obtain ⟨r,hr⟩ := hrest
          exact ⟨_,by rw [hr]; rfl⟩
        · simp only [hgo]
          exact ⟨_,rfl⟩
  refine hmain _ k (fun v _ => Nat.lt_succ_of_le ?_) (Nat.succ_pos _)
  exact (card_filter_le _ _).trans (List.toFinset_card_le _)

theorem walk_congr {t' : Table K V} (h : ∀ k,t.lookup k = t'.lookup k) (k : K) :
    t.walk link goOn fuel k = t'.walk link goOn fuel k := by
  induction fuel generalizing k with
  | zero => rfl
  | succ fuel ih =>
    simp only [Table.walk,h k,ih]

/-- Tables with the same records have the same number of them. -/
theorem length_entries_congr {t' : Table K V} (h : ∀ k,t.lookup k = t'.lookup k) :
    t.entries.length = t'.entries.length := by
  have hperm : t.keys.Perm t'.keys := by
    refine (List.perm_ext_iff_of_nodup t.keys_nodup t'.keys_nodup).mpr fun k => ?_
    rw [← mem_keys,← mem_keys,← lookup_isSome,← lookup_isSome,h k]
  have hlength := hperm.length_eq
  simpa only [AList.keys,List.keys,List.length_map] using hlength

end LogosCore.Table
