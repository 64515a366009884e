import LogosCore.Frames

/-! # Lists of thawing funds

What storing, updating and pruning do to the thawing funds of one account. Funds with the same
expiration and target are meant to be consolidated; they are if the search for them is not
given up before it meets them. -/
namespace LogosCore.Ledger

open Option

variable {H : Type} [DecidableEq H] [Zero H] (cfg : Config H) {i : ℕ} {ts : List (ThawingFunds H)}
  {t t' : ThawingFunds H}

namespace ThawingFunds

def key (t : ThawingFunds H) : Epoch × H := (t.expirationEpoch,t.target)

/-- No two funds of the list have the same expiration and target. -/
def Distinct (ts : List (ThawingFunds H)) : Prop := (ts.map key).Nodup

/-- No funds that expire earlier stand before funds with the given expiration and target. -/
def Searchable (k : Epoch × H) (ts : List (ThawingFunds H)) : Prop :=
  ts.Pairwise fun a b => a.expirationEpoch < k.1 → b.key ≠ k

instance (k : Epoch × H) (ts : List (ThawingFunds H)) : Decidable (Searchable k ts) :=
  inferInstanceAs (Decidable (List.Pairwise _ _))

def totalAmount (ts : List (ThawingFunds H)) : ℕ := (ts.map fun t => t.amount.toNat).sum

@[simp] theorem totalAmount_cons (t : ThawingFunds H) (ts : List (ThawingFunds H)) :
    totalAmount (t::ts) = t.amount.toNat + totalAmount ts := by
  simp [totalAmount]

theorem totalAmount_perm {ts' : List (ThawingFunds H)} (h : ts.Perm ts') :
    totalAmount ts = totalAmount ts' :=
  (h.map _).sum_eq

theorem totalAmount_erase (h : t ∈ ts) :
    totalAmount (ts.erase t) + t.amount.toNat = totalAmount ts := by
  rw [totalAmount_perm (List.perm_cons_erase h),totalAmount_cons,Nat.add_comm]

theorem totalAmount_set (h : ts[i]? = some t) :
    totalAmount (ts.set i t') + t.amount.toNat = totalAmount ts + t'.amount.toNat := by
  induction ts generalizing i with
  | nil => simp at h
  | cons u ts ih =>
    cases i with
    | zero =>
      simp only [List.getElem?_cons_zero,some.injEq] at h
      subst h
      simp only [List.set_cons_zero,totalAmount_cons]
      omega
    | succ i =>
      have hrest := ih (i := i) (by simpa using h)
      simp only [List.set_cons_succ,totalAmount_cons]
      omega

theorem Searchable.zero (target : H) (ts : List (ThawingFunds H)) : Searchable (0,target) ts := by
  refine List.pairwise_of_forall fun a b hlt => ?_
  exact absurd hlt BitVec.not_lt_zero

theorem Searchable.of_notMem {k : Epoch × H} (h : k ∉ ts.map key) : Searchable k ts := by
  refine List.Pairwise.imp_of_mem (R := fun _ _ => True) ?_ (List.pairwise_of_forall fun _ _ => trivial)
  intro a b _ hb _ _ heq
  exact h (heq ▸ List.mem_map_of_mem hb)

theorem Distinct.erase (h : Distinct ts) (t : ThawingFunds H) : Distinct (ts.erase t) :=
  h.sublist (List.erase_sublist.map _)

/-- Once erased, its expiration and target do not occur any more. -/
theorem Distinct.key_notMem_erase (h : Distinct ts) (ht : t ∈ ts) :
    t.key ∉ (ts.erase t).map key := by
  have hperm := (List.perm_cons_erase ht).map key
  exact (List.nodup_cons.mp (hperm.nodup_iff.mp h)).1

end ThawingFunds

section Deposit

open ThawingFunds StakingManager

def deposit (funds : ThawingFunds H) (ts : List (ThawingFunds H)) : List (ThawingFunds H) :=
  match (findConsolidated funds ts).bind fun i => (ts[i]?).map fun t => (i,t) with
  | some (i,t) => ts.set i { t with amount := t.amount + funds.amount }
  | none => if funds ∈ ts then ts else
    ts.orderedInsert (ThawingFunds.sortKey cfg · ≤ ThawingFunds.sortKey cfg ·) funds

variable {funds : ThawingFunds H}

theorem findConsolidated_some (h : findConsolidated funds ts = some i) :
    ∃ t,ts[i]? = some t ∧ t.key = funds.key := by
  induction ts generalizing i with
  | nil => cases h
  | cons t ts ih =>
    unfold findConsolidated at h
    by_cases hkey : t.target = funds.target ∧ t.expirationEpoch = funds.expirationEpoch
    · rw [if_pos hkey] at h
      cases h
      exact ⟨t,rfl,Prod.ext hkey.2 hkey.1⟩
    · rw [if_neg hkey] at h
      by_cases hstop : t.expirationEpoch < funds.expirationEpoch
      · rw [if_pos hstop] at h
        cases h
      · rw [if_neg hstop] at h
        obtain ⟨j,hj,rfl⟩ := map_eq_some_iff.mp h
        simpa using ih hj

theorem findConsolidated_none (hs : Searchable funds.key ts)
    (h : findConsolidated funds ts = none) : funds.key ∉ ts.map key := by
  induction ts with
  | nil => simp
  | cons t ts ih =>
    obtain ⟨hhead,hrest⟩ := List.pairwise_cons.mp hs
    unfold findConsolidated at h
    by_cases hkey : t.target = funds.target ∧ t.expirationEpoch = funds.expirationEpoch
    · rw [if_pos hkey] at h
      cases h
    · rw [if_neg hkey] at h
      have hne : funds.key ≠ t.key := fun heq =>
        hkey ⟨(congrArg Prod.snd heq).symm,(congrArg Prod.fst heq).symm⟩
      have hnotMem : funds.key ∉ ts.map key := by
        by_cases hstop : t.expirationEpoch < funds.expirationEpoch
        · intro hmem
          obtain ⟨u,hu,heq⟩ := List.mem_map.mp hmem
          exact hhead u hu hstop heq
        · rw [if_neg hstop] at h
          exact ih hrest (map_eq_none_iff.mp h)
      simp only [List.map_cons,List.mem_cons,not_or]
      exact ⟨hne,hnotMem⟩

/-- Storing funds consolidates them, or adds them to a list where their key does not occur. -/
theorem deposit_cases (hs : Searchable funds.key ts) :
    (∃ i t,ts[i]? = some t ∧ t.key = funds.key ∧
      deposit cfg funds ts = ts.set i { t with amount := t.amount + funds.amount }) ∨
    (funds.key ∉ ts.map key ∧ deposit cfg funds ts =
      ts.orderedInsert (ThawingFunds.sortKey cfg · ≤ ThawingFunds.sortKey cfg ·) funds) := by
  unfold deposit
  cases hfind : findConsolidated funds ts with
  | none =>
    have hnotMem := findConsolidated_none hs hfind
    refine .inr ⟨hnotMem,?_⟩
    simp only [bind_none]
    rw [if_neg fun hmem => hnotMem (List.mem_map_of_mem hmem)]
  | some i =>
    obtain ⟨t,ht,hkey⟩ := findConsolidated_some hfind
    refine .inl ⟨i,t,ht,hkey,?_⟩
    simp only [bind_some,ht,map_some]

theorem totalAmount_deposit (hs : Searchable funds.key ts)
    (hfit : totalAmount ts + funds.amount.toNat < 2 ^ 128) :
    totalAmount (deposit cfg funds ts) = totalAmount ts + funds.amount.toNat := by
  obtain ⟨i,t,ht,-,heq⟩ | ⟨-,heq⟩ := deposit_cases cfg hs
  · have hset : totalAmount (ts.set i { t with amount := t.amount + funds.amount }) +
        t.amount.toNat = totalAmount ts + (t.amount + funds.amount).toNat := totalAmount_set ht
    have hle : t.amount.toNat ≤ totalAmount ts :=
      (totalAmount_erase (List.mem_of_getElem? ht)).symm ▸ Nat.le_add_left ..
    have hadd : (t.amount + funds.amount).toNat = t.amount.toNat + funds.amount.toNat := by
      exact Nat.mod_eq_of_lt (by omega)
    rw [heq]
    omega
  · rw [heq,totalAmount_perm (List.perm_orderedInsert _ _ _),totalAmount_cons,Nat.add_comm]

/-- Replacing a record by one with the same value of `f` does not change the values of `f`. -/
theorem map_set_eq {α : Type} {f : ThawingFunds H → α} (h : ts[i]? = some t) (hf : f t' = f t) :
    (ts.set i t').map f = ts.map f := by
  rw [List.map_set,hf]
  refine List.ext_getElem? fun j => ?_
  rw [List.getElem?_set]
  by_cases hij : i = j
  · subst hij
    simp [List.getElem?_map,h]
    exact (List.getElem?_eq_some_iff.mp h).1
  · rw [if_neg hij]

theorem ThawingFunds.Distinct.mem_set {u : ThawingFunds H} (h : Distinct ts)
    (ht : ts[i]? = some t) (hu : u ∈ ts.set i t') : u = t' ∨ u.key ≠ t.key ∧ u ∈ ts := by
  obtain ⟨j,hj⟩ := List.getElem?_of_mem hu
  rw [List.getElem?_set] at hj
  split at hj
  · split at hj
    · cases hj
      exact .inl rfl
    · cases hj
  · next hne =>
    refine .inr ⟨fun hkey => hne ?_,List.mem_of_getElem? hj⟩
    have hlt : i < (ts.map key).length := by
      rw [List.length_map]
      exact (List.getElem?_eq_some_iff.mp ht).1
    refine (List.getElem?_inj hlt h).mp ?_
    rw [List.getElem?_map,List.getElem?_map,ht,hj,map_some,map_some,hkey]

theorem ThawingFunds.Distinct.deposit (h : Distinct ts) (hs : Searchable funds.key ts) :
    Distinct (deposit cfg funds ts) := by
  unfold Distinct at h ⊢
  obtain ⟨i,t,ht,-,heq⟩ | ⟨hnotMem,heq⟩ := deposit_cases cfg hs
  · have hkeys : (ts.set i { t with amount := t.amount + funds.amount }).map key = ts.map key :=
      map_set_eq ht rfl
    rwa [heq,hkeys]
  · rw [heq,((List.perm_orderedInsert _ _ _).map key).nodup_iff]
    exact List.nodup_cons.mpr ⟨hnotMem,h⟩

/-- Funds that expire no earlier do not hide those with another key. -/
theorem ThawingFunds.Searchable.deposit {k : Epoch × H} (h : Searchable k ts)
    (hs : Searchable funds.key ts) (hexp : ¬funds.expirationEpoch < k.1) (hne : funds.key ≠ k) :
    Searchable k (deposit cfg funds ts) := by
  obtain ⟨i,t,ht,-,heq⟩ | ⟨-,heq⟩ := deposit_cases cfg hs
  · have hkeys : (ts.set i { t with amount := t.amount + funds.amount }).map key = ts.map key :=
      map_set_eq ht rfl
    have hpair : (ts.map key).Pairwise fun a b => a.1 < k.1 → b ≠ k := List.pairwise_map.mpr h
    rw [← hkeys] at hpair
    rw [heq]
    exact List.pairwise_map.mp hpair
  · rw [heq]
    exact Table.pairwise_orderedInsert h fun u _ => ⟨fun hlt => absurd hlt hexp,fun _ => hne⟩

end Deposit

section Prune

variable {epoch later : Epoch}

theorem pruneableAmount_cons (t : ThawingFunds H) (ts : List (ThawingFunds H)) :
    pruneableAmount (t::ts) epoch =
      (if t.Pruneable epoch then t.amount else 0) + pruneableAmount ts epoch := by
  -- what is in the accumulator can be added at the end
  have hfold : ∀ (ts : List (ThawingFunds H)) (acc : Amount),
      ts.foldl (fun total t => if t.Pruneable epoch then total + t.amount else total) acc =
        acc + pruneableAmount ts epoch := by
    intro ts
    induction ts with
    | nil => exact fun acc => (add_zero acc).symm
    | cons t ts ih =>
      intro acc
      rw [pruneableAmount,List.foldl_cons,List.foldl_cons,ih,ih]
      split
      · rw [zero_add,add_assoc]
      · rw [zero_add]
  rw [pruneableAmount,List.foldl_cons,hfold,zero_add]

theorem toNat_pruneableAmount (ts : List (ThawingFunds H)) (epoch : Epoch)
    (hfit : ThawingFunds.totalAmount ts < 2 ^ 128) :
    (pruneableAmount ts epoch).toNat +
      ThawingFunds.totalAmount (ts.filter fun t => ¬t.Pruneable epoch) =
        ThawingFunds.totalAmount ts := by
  induction ts with
  | nil => rfl
  | cons t ts ih =>
    rw [ThawingFunds.totalAmount_cons] at hfit ⊢
    rw [pruneableAmount_cons]
    by_cases ht : t.Pruneable epoch
    · rw [if_pos ht,List.filter_cons_of_neg (by simpa using ht)]
      bv_omega
    · rw [if_neg ht,List.filter_cons_of_pos (by simpa using ht),ThawingFunds.totalAmount_cons,
        zero_add]
      omega

open StakingManager Program

variable {origin : H} {info info' : AccountInfo H} {g g' : GovernanceStore H}

/-- Pruned in an epoch: pruneable funds, unless the account has been pruned in the epoch. -/
def ThawingFunds.Due (info : AccountInfo H) (epoch : Epoch) (t : ThawingFunds H) : Prop :=
  info.epochThawingUpdated < epoch ∧ t.Pruneable epoch

instance (t : ThawingFunds H) : Decidable (t.Due info epoch) := inferInstanceAs (Decidable (_ ∧ _))

theorem getPruneableThawingAmount_eq : getPruneableThawingAmount g origin info epoch =
    (((g.thawing.duplicates origin).filter fun t => t.Due info epoch).map (·.amount)).sum := by
  unfold getPruneableThawingAmount
  by_cases hdone : epoch ≤ info.epochThawingUpdated
  · simp [hdone,ThawingFunds.Due,BitVec.not_lt.mpr hdone]
  · rw [if_neg hdone]
    induction g.thawing.duplicates origin with
    | nil => rfl
    | cons t ts ih =>
      rw [pruneableAmount_cons,ih]
      by_cases ht : t.Pruneable epoch
      · simp [ht,ThawingFunds.Due,BitVec.not_le.mp hdone]
      · simp [ht,ThawingFunds.Due]

/-- What pruning leaves of an account and of the thawing funds. -/
structure Pruned (origin : H) (epoch : Epoch) (info : AccountInfo H) (g : GovernanceStore H)
    (info' : AccountInfo H) (g' : GovernanceStore H) : Prop where
  account : info' = { info with
    availableBalance := info.availableBalance + getPruneableThawingAmount g origin info epoch
    epochThawingUpdated :=
      if info.epochThawingUpdated < epoch then epoch else info.epochThawingUpdated }
  records : g'.thawing.duplicates origin =
    (g.thawing.duplicates origin).filter fun t => ¬t.Due info epoch
  others : ∀ c ≠ origin,g'.thawing.duplicates c = g.thawing.duplicates c

theorem wp_pruneThawing (origin : H) (info : AccountInfo H) (epoch : Epoch)
    (g : GovernanceStore H) :
    (pruneThawing origin info epoch).wp (fun _ => True) (Pruned origin epoch info g) g := by
  refine wp_ite (fun hdone => ?_) fun hdue => ?_
  · have hlt := BitVec.not_lt.mpr hdone
    exact ⟨by simp [getPruneableThawingAmount,hdone,hlt],by simp [ThawingFunds.Due,hlt],
      fun _ _ => rfl⟩
  · have hlt := BitVec.not_le.mp hdue
    refine (AccountInfo.wp_setAvailableBalance trivial _ _ _ (.inr trivial) _).imp
      fun info' g' h => ?_
    obtain ⟨hpower,hinfo,-⟩ := h
    refine ⟨by simp [hinfo,getPruneableThawingAmount,hdue,hlt],?_,fun c hc => ?_⟩
    · rw [hpower]
      simp [ThawingFunds.Due,hlt,Table.duplicates_insert]
    · rw [hpower]
      simp [Table.duplicates_insert,hc]

/-- Calls of the same epoch after the first do nothing. -/
theorem Pruned.idle (h : Pruned origin epoch info g info' g') :
    (pruneThawing origin info' epoch).run g' = .ok (info',g') := by
  have hdone : epoch ≤ info'.epochThawingUpdated := by
    rw [h.account]
    split
    · exact BitVec.le_refl _
    · next hle => exact BitVec.not_lt.mp hle
  unfold pruneThawing
  rw [if_pos hdone]
  rfl

theorem sum_filter_or {p q : ThawingFunds H → Bool} (ts : List (ThawingFunds H)) :
    ((ts.filter p).map (·.amount)).sum + (((ts.filter fun t => !p t).filter q).map (·.amount)).sum =
      ((ts.filter fun t => p t || q t).map (·.amount)).sum := by
  induction ts with
  | nil => rfl
  | cons t ts ih =>
    cases hp : p t <;> cases hq : q t <;> simp [hp,hq,← ih,add_assoc,add_left_comm]

/-- Pruning earlier as well makes no difference. -/
theorem Pruned.trans {info1 info2 : AccountInfo H} {g1 g2 : GovernanceStore H}
    (h1 : Pruned origin epoch info g info1 g1) (h2 : Pruned origin later info1 g1 info2 g2)
    (hle : epoch ≤ later) : Pruned origin later info g info2 g2 := by
  have hdue : ∀ t : ThawingFunds H,t.Due info later ↔ t.Due info epoch ∨ t.Due info1 later := by
    intro t
    rw [h1.account]
    unfold ThawingFunds.Due ThawingFunds.Pruneable
    split <;> bv_omega
  refine ⟨?_,?_,fun c hc => (h2.others c hc).trans (h1.others c hc)⟩
  · have hamount : getPruneableThawingAmount g origin info later =
        getPruneableThawingAmount g origin info epoch +
          getPruneableThawingAmount g1 origin info1 later := by
      simp only [getPruneableThawingAmount_eq,h1.records,hdue,Bool.decide_or,decide_not,
        sum_filter_or]
    have hepoch : (if info1.epochThawingUpdated < later then later
        else info1.epochThawingUpdated) =
          if info.epochThawingUpdated < later then later else info.epochThawingUpdated := by
      rw [h1.account]
      split_ifs <;> bv_omega
    rw [h2.account,hepoch,hamount,← add_assoc,h1.account]
  · rw [h2.records,h1.records,List.filter_filter]
    simp [hdue,Bool.and_comm]

/-- Pruning makes available what is predicted, once in an epoch, whether or not the account was
pruned before. Only one pruned in the epoch keeps pruneable funds. -/
theorem pruneThawing_agrees (origin : H) (info : AccountInfo H) (epoch : Epoch)
    (g : GovernanceStore H) :
    (∀ info' g',(pruneThawing origin info epoch).run g = .ok (info',g') →
      Pruned origin epoch info g info' g' ∧
      (info.availableBalance.toNat + ThawingFunds.totalAmount (g.thawing.duplicates origin) <
        2 ^ 128 → info'.availableBalance.toNat = info.availableBalance.toNat +
          (getPruneableThawingAmount g origin info epoch).toNat) ∧
      (pruneThawing origin info' epoch).run g' = .ok (info',g')) ∧
    ∀ later info1 g1 info2 g2 info3 g3,epoch ≤ later →
      (pruneThawing origin info epoch).run g = .ok (info1,g1) →
      (pruneThawing origin info1 later).run g1 = .ok (info2,g2) →
      (pruneThawing origin info later).run g = .ok (info3,g3) →
      info2 = info3 ∧ ∀ c,g2.thawing.duplicates c = g3.thawing.duplicates c := by
  constructor
  · intro info' g' hrun
    have h := (wp_pruneThawing origin info epoch g).run hrun
    refine ⟨h,fun hfit => ?_,h.idle⟩
    have hsum := toNat_pruneableAmount (g.thawing.duplicates origin) epoch (by omega)
    rw [h.account,getPruneableThawingAmount]
    split <;> bv_omega
  · intro later info1 g1 info2 g2 info3 g3 hle hrun1 hrun2 hrun3
    have h2 := ((wp_pruneThawing ..).run hrun1).trans ((wp_pruneThawing ..).run hrun2) hle
    have h3 := (wp_pruneThawing ..).run hrun3
    refine ⟨h2.account.trans h3.account.symm,fun c => ?_⟩
    by_cases hc : c = origin
    · rw [hc,h2.records,h3.records]
    · rw [h2.others c hc,h3.others c hc]

/-- An account pruned in epoch 10 already. -/
theorem pruneThawing_keeps_pruneable :
    let info : AccountInfo ℕ := { AccountInfo.default with epochThawingUpdated := 10 }
    let g : GovernanceStore ℕ :=
      { GovernanceStore.empty with thawing := AList.insert 1 [⟨9,1,5,0⟩] ∅ }
    (pruneThawing 1 info 10).run g = .ok (info,g) ∧
      ∃ t ∈ g.thawing.duplicates 1,t.Pruneable 10 := by
  exact ⟨rfl,_,List.mem_cons_self,by decide⟩

end Prune

section Redate

open ThawingFunds

/-- The funds that get another expiration: the marked ones, up to the first that stops the walk. -/
def redated (marked stops : ThawingFunds H → Bool) : List (ThawingFunds H) → List (ThawingFunds H)
  | [] => []
  | t::ts => if marked t then t::redated marked stops ts
    else if stops t then [] else redated marked stops ts

theorem redated_sublist (marked stops : ThawingFunds H → Bool) (ts : List (ThawingFunds H)) :
    (redated marked stops ts).Sublist ts := by
  induction ts with
  | nil => exact .slnil
  | cons t ts ih =>
    unfold redated
    split
    · exact ih.cons_cons t
    · split
      · exact List.nil_sublist _
      · exact ih.cons t

theorem marked_of_mem_redated {marked stops : ThawingFunds H → Bool}
    (h : t ∈ redated marked stops ts) : marked t := by
  induction ts with
  | nil => cases h
  | cons u ts ih =>
    unfold redated at h
    split at h
    · next hu =>
      rcases List.mem_cons.mp h with rfl | h
      · exact hu
      · exact ih h
    · split at h
      · cases h
      · exact ih h

/-- If nothing that is marked comes after what stops the walk, the walk misses nothing. -/
theorem redated_eq_filter {marked stops : ThawingFunds H → Bool}
    (h : ts.Pairwise fun a b => stops a → ¬marked b) :
    redated marked stops ts = ts.filter marked := by
  induction ts with
  | nil => rfl
  | cons t ts ih =>
    obtain ⟨hhead,hrest⟩ := List.pairwise_cons.mp h
    unfold redated
    cases hmarked : marked t with
    | true => simp [hmarked,ih hrest]
    | false =>
      rw [List.filter_cons_of_neg (by simp [hmarked]),if_neg Bool.false_ne_true]
      cases hstops : stops t with
      | true => exact (List.filter_eq_nil_iff.mpr fun u hu => hhead u hu hstops).symm
      | false => exact ih hrest

/-- If the walk goes to the end, what stays is what is not marked. -/
theorem diff_redated_of_never {marked : ThawingFunds H → Bool} (h : Distinct ts) :
    ts.diff (redated marked (fun _ => false) ts) = ts.filter fun t => ¬marked t := by
  have hnodup : ts.Nodup := List.Nodup.of_map _ h
  rw [redated_eq_filter (List.pairwise_of_forall fun _ _ h => absurd h Bool.false_ne_true),
    hnodup.sdiff_eq_filter]
  refine List.filter_congr fun t ht => ?_
  simp [ht]

end Redate

section Order

open ThawingFunds

variable {cfg} {a b : ThawingFunds H}

/-- Within 256 epochs the bytes are in the order of the numbers, and frozen funds come last. -/
theorem expiration_le_of_sortKey_le (hle : sortKey cfg a ≤ sortKey cfg b)
    (hblock : a.expirationEpoch = 0 ∨ b.expirationEpoch = 0 ∨
      a.expirationEpoch.toNat / 256 = b.expirationEpoch.toNat / 256) :
    b.expirationEpoch ≤ a.expirationEpoch := by
  by_contra hlt
  rw [BitVec.not_le] at hlt
  refine not_lt.mpr hle ?_
  simp only [sortKey,List.cons_lt_cons_iff]
  rcases hblock with hzero | hzero | hblock
  · bv_omega
  · rw [hzero] at hlt
    exact absurd hlt BitVec.not_lt_zero
  · bv_omega

/-- Records are in descending order of expiration, and no match is overlooked. -/
structure Descending (cfg : Config H) (ts : List (ThawingFunds H)) : Prop where
  ordered : ts.Pairwise fun a b => b.expirationEpoch ≤ a.expirationEpoch
  consolidated : ∀ funds : ThawingFunds H,funds.key ∈ ts.map key → ∃ i t,ts[i]? = some t ∧
    t.key = funds.key ∧ deposit cfg funds ts = ts.set i { t with amount := t.amount + funds.amount }
  marked : ∀ (origin : H) (expiration : Epoch),
    redated (fun t => t.expirationEpoch = expiration ∧ t.target = origin)
      (fun t => t.expirationEpoch < expiration) ts =
    ts.filter fun t => t.expirationEpoch = expiration ∧ t.target = origin

theorem Descending.of_ordered
    (h : ts.Pairwise fun a b => b.expirationEpoch ≤ a.expirationEpoch) : Descending cfg ts where
  ordered := h
  consolidated funds hmem := by
    have hs : Searchable funds.key ts := h.imp fun hle hlt heq => by
      rw [← heq] at hlt
      exact absurd hlt (BitVec.not_lt.mpr hle)
    rcases deposit_cases cfg hs with hset | ⟨hnotMem,-⟩
    · exact hset
    · exact absurd hmem hnotMem
  marked origin expiration := by
    refine redated_eq_filter (h.imp fun hle hstop hmarked => ?_)
    simp only [decide_eq_true_eq] at hstop hmarked
    rw [hmarked.1] at hle
    exact absurd hstop (BitVec.not_lt.mpr hle)

variable (cfg) in
/-- Frozen funds apart, the order of the database serves every account with expirations between two
epochs exactly if both lie in one block of 256 epochs. -/
theorem descending_iff_same_block (first last : Epoch) (hle : first ≤ last) :
    (∀ ts : List (ThawingFunds H),ts.Pairwise (sortKey cfg · ≤ sortKey cfg ·) →
      (∀ t ∈ ts,t.expirationEpoch = 0 ∨ first ≤ t.expirationEpoch ∧ t.expirationEpoch ≤ last) →
      Descending cfg ts) ↔ first.toNat / 256 = last.toNat / 256 := by
  constructor
  · intro h
    by_contra hne
    -- the last epoch of a block and the first one of the next
    obtain ⟨e,he⟩ : ∃ e : Epoch,e.toNat = last.toNat / 256 * 256 :=
      ⟨BitVec.ofNat 32 (last.toNat / 256 * 256),by bv_omega⟩
    have hsorted : sortKey cfg (⟨e - 1,0,0,0⟩ : ThawingFunds H) ≤ sortKey cfg ⟨e,0,0,0⟩ := by
      refine le_of_lt (List.cons_lt_cons_iff.mpr (.inl ?_))
      bv_omega
    have hordered := (h [⟨e - 1,0,0,0⟩,⟨e,0,0,0⟩] (List.pairwise_pair.mpr hsorted) (by
      simp only [List.mem_cons,List.not_mem_nil,or_false,forall_eq_or_imp,forall_eq]
      bv_omega)).ordered
    have hback := List.pairwise_pair.mp hordered
    bv_omega
  · intro hblock ts hsorted hwithin
    refine .of_ordered (hsorted.imp_of_mem fun ha hb hab => expiration_le_of_sortKey_le hab ?_)
    rcases hwithin _ ha with hzero | ⟨ha1,ha2⟩
    · exact .inl hzero
    · rcases hwithin _ hb with hzero | ⟨hb1,hb2⟩
      · exact .inr (.inl hzero)
      · exact .inr (.inr (by bv_omega))

theorem descending_second_block :
    Descending Config.sample [(⟨300,1,10,7⟩ : ThawingFunds ℕ),⟨256,1,20,8⟩,⟨0,1,5,9⟩] :=
  (descending_iff_same_block Config.sample 256 511 (by decide)).mpr (by decide) _
    (by decide +kernel) (by decide)

/-- Funds of epoch 255 come before those of epoch 256, of which more are not found. -/
theorem expirations_out_of_order :
    let ts : List (ThawingFunds ℕ) := [⟨255,1,10,7⟩,⟨256,1,20,8⟩]
    ts.Pairwise (sortKey Config.sample · ≤ sortKey Config.sample ·) ∧
    deposit Config.sample ⟨256,1,5,8⟩ ts = [⟨255,1,10,7⟩,⟨256,1,5,8⟩,⟨256,1,20,8⟩] ∧
    redated (fun t => t.expirationEpoch = 256 ∧ t.target = 1) (fun t => t.expirationEpoch < 256) ts =
      [] := by
  decide +kernel

end Order

end LogosCore.Ledger
