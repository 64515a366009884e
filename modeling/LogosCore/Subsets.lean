import Mathlib

/-!
# Grouping requests by their supporting delegates

`RequestConsensusManager::GenerateSubsets`, which a request primary runs when its batch is
rejected. A use of an invalid list iterator is undefined behaviour and is modelled as `none`.
-/

namespace LogosCore.Subsets

open Finset

structure Weights (δ : Type) where
  rejectVote : BitVec 128 := 0
  rejectStake : BitVec 128 := 0
  indirectVoteSupport : BitVec 128 := 0
  indirectStakeSupport : BitVec 128 := 0
  supportingDelegates : Finset δ := ∅

/-- A set of delegates and the indexes of the requests they all support. -/
abbrev SupportMap (δ : Type) := Finset δ × Finset ℕ

variable {δ : Type} [DecidableEq δ]

/-- `find_if` for an entry with the same delegates, `push_back` when there is none. -/
def addSupport (i : ℕ) (delegates : Finset δ) : List (SupportMap δ) → List (SupportMap δ)
  | [] => [(delegates,{i})]
  | entry :: rest =>
    if entry.1 = delegates then (entry.1,insert i entry.2) :: rest
    else entry :: addSupport i delegates rest

/-- The first loop: requests that reached quorum, grouped by equal support. -/
def collect (reaches : ℕ → Bool) (support : ℕ → Finset δ) (requestCount : ℕ) :
    List (SupportMap δ) :=
  (List.range requestCount).foldl
    (fun subsets i => if reaches i then addSupport i (support i) subsets else subsets) []

/-- The body of the pairwise loop; `none` when neither set contains the other. -/
def merge (a b : SupportMap δ) : Option (SupportMap δ) :=
  if b.1.card < a.1.card then
    if b.1 ⊆ a.1 then some (b.1,a.2 ∪ b.2) else none
  else if a.1 ⊆ b.1 then some (a.1,a.2 ∪ b.2) else none

/-- The inner loop over the entries following `a`. -/
def mergeFollowing (a : SupportMap δ) :
    List (SupportMap δ) → Option (SupportMap δ × List (SupportMap δ))
  | [] => some (a,[])
  | b :: rest =>
    match merge a b with
    | none => (mergeFollowing a rest).map fun r => (r.1,b :: r.2)
    | some a' =>
      -- `erase(b); b = tmp` already stands on the next entry, then the loop runs `++b`
      match rest with
      | [] => none
      | c :: rest' => (mergeFollowing a' rest').map fun r => (r.1,c :: r.2)

variable {i : ℕ} {a b c : SupportMap δ} {l : List (SupportMap δ)} {s : Finset δ}

theorem mergeFollowing_length {r : SupportMap δ × List (SupportMap δ)}
    (h : mergeFollowing a l = some r) : r.2.length ≤ l.length := by
  fun_induction mergeFollowing a l generalizing r with
  | case1 a =>
    cases h
    simp
  | case2 a b rest hm ih =>
    obtain ⟨q,hq,rfl⟩ := Option.map_eq_some_iff.mp h
    simpa using ih hq
  | case3 => simp at h
  | case4 a b a' hm c rest ih =>
    obtain ⟨q,hq,rfl⟩ := Option.map_eq_some_iff.mp h
    have := ih hq
    simp
    omega

def mergeAll (l : List (SupportMap δ)) : Option (List (SupportMap δ)) :=
  match l with
  | [] => some []
  | a :: rest =>
    match h : mergeFollowing a rest with
    | none => none
    | some r =>
      have : r.2.length < rest.length + 1 := Nat.lt_succ_of_le (mergeFollowing_length h)
      (mergeAll r.2).map (r.1 :: ·)
termination_by l.length

/-- Whether the delegates approving request `i` can get it post-committed; sums wrap. -/
def reaches (vote stake : BitVec 128) (weights : ℕ → Weights δ)
    (reachedQuorum : BitVec 128 → BitVec 128 → Bool) (i : ℕ) : Bool :=
  reachedQuorum (vote + (weights i).indirectVoteSupport) (stake + (weights i).indirectStakeSupport)

def generateSubsets (vote stake : BitVec 128) (requestCount : ℕ) (weights : ℕ → Weights δ)
    (reachedQuorum : BitVec 128 → BitVec 128 → Bool) : Option (List (SupportMap δ)) :=
  mergeAll (collect (reaches vote stake weights reachedQuorum)
    (fun i => (weights i).supportingDelegates) requestCount)


/-- The groups partition `R`, and the delegates of each are the support of one request. -/
structure Grouped (R : ℕ → Prop) (support : ℕ → Finset δ) (l : List (SupportMap δ)) : Prop where
  disjoint : l.Pairwise fun g h => Disjoint g.2 h.2
  mem_iff : ∀ i,(∃ g ∈ l,i ∈ g.2) ↔ R i
  supported : ∀ g ∈ l,∀ i ∈ g.2,g.1 ⊆ support i
  attained : ∀ g ∈ l,∃ i ∈ g.2,support i = g.1

variable {R : ℕ → Prop} {support : ℕ → Finset δ}

omit [DecidableEq δ] in
theorem Grouped.perm {m : List (SupportMap δ)} (h : Grouped R support l) (p : l.Perm m) :
    Grouped R support m where
  disjoint := h.disjoint.perm p fun hd => hd.symm
  mem_iff i := by simpa only [p.mem_iff] using h.mem_iff i
  supported g hg := h.supported g (p.mem_iff.mpr hg)
  attained g hg := h.attained g (p.mem_iff.mpr hg)

theorem merge_eq_some (h : merge a b = some c) :
    c.2 = a.2 ∪ b.2 ∧ c.1 ⊆ a.1 ∧ c.1 ⊆ b.1 ∧ (c.1 = a.1 ∨ c.1 = b.1) := by
  unfold merge at h
  split_ifs at h with hcard hba hab <;> cases h
  · exact ⟨rfl,hba,subset_rfl,.inr rfl⟩
  · exact ⟨rfl,subset_rfl,hab,.inl rfl⟩

theorem merge_eq_none (hab : ¬a.1 ⊆ b.1) (hba : ¬b.1 ⊆ a.1) : merge a b = none := by
  simp [merge,hab,hba]

theorem Grouped.merge (h : Grouped R support (a :: b :: l)) (hm : merge a b = some c) :
    Grouped R support (c :: l) := by
  obtain ⟨hidx,hca,hcb,hc⟩ := merge_eq_some hm
  have hd := h.disjoint
  simp only [List.pairwise_cons,List.forall_mem_cons] at hd
  constructor
  · refine List.pairwise_cons.mpr ⟨fun g hg => ?_,hd.2.2⟩
    rw [hidx]
    exact disjoint_union_left.mpr ⟨hd.1.2 g hg,hd.2.1 g hg⟩
  · intro i
    rw [← h.mem_iff i]
    simp only [List.exists_mem_cons_iff,hidx,mem_union,or_assoc]
  · refine List.forall_mem_cons.mpr ⟨fun i hi => ?_,fun g hg => h.supported g (by simp [hg])⟩
    rcases mem_union.mp (hidx ▸ hi) with hi | hi
    · exact hca.trans (h.supported a (by simp) i hi)
    · exact hcb.trans (h.supported b (by simp) i hi)
  · refine List.forall_mem_cons.mpr ⟨?_,fun g hg => h.attained g (by simp [hg])⟩
    rcases hc with hc | hc
    · obtain ⟨i,hi,hs⟩ := h.attained a (by simp)
      exact ⟨i,by simp [hidx,hi],hs.trans hc.symm⟩
    · obtain ⟨i,hi,hs⟩ := h.attained b (by simp)
      exact ⟨i,by simp [hidx,hi],hs.trans hc.symm⟩

theorem mergeFollowing_grouped {p : List (SupportMap δ)} {r : SupportMap δ × List (SupportMap δ)}
    (hr : mergeFollowing a l = some r) (h : Grouped R support (a :: (l ++ p))) :
    Grouped R support (r.1 :: (r.2 ++ p)) := by
  fun_induction mergeFollowing a l generalizing r p with
  | case1 a =>
    cases hr
    exact h
  | case2 a b rest hm ih =>
    obtain ⟨q,hq,rfl⟩ := Option.map_eq_some_iff.mp hr
    have hb := ih hq (p := b :: p) (h.perm (List.perm_middle.symm.cons a))
    exact hb.perm (List.perm_middle.cons q.1)
  | case3 => simp at hr
  | case4 a b a' hm c rest ih =>
    obtain ⟨q,hq,rfl⟩ := Option.map_eq_some_iff.mp hr
    have hc := ih hq (p := c :: p) ((h.merge hm).perm (List.perm_middle.symm.cons a'))
    exact hc.perm (List.perm_middle.cons q.1)

theorem mergeAll_grouped {m p : List (SupportMap δ)} (hm : mergeAll l = some m)
    (h : Grouped R support (l ++ p)) : Grouped R support (m ++ p) := by
  fun_induction mergeAll l generalizing m p with
  | case1 =>
    cases hm
    exact h
  | case2 => simp at hm
  | case3 a rest r hr _ ih =>
    obtain ⟨q,hq,rfl⟩ := Option.map_eq_some_iff.mp hm
    have hstep := mergeFollowing_grouped hr h
    have hrest := ih hq (p := r.1 :: p) (hstep.perm List.perm_middle.symm)
    exact hrest.perm List.perm_middle

/-- What the first loop builds: one entry per distinct support, holding all its requests. -/
structure Collected (R : ℕ → Prop) (support : ℕ → Finset δ) (l : List (SupportMap δ)) : Prop where
  distinct : l.Pairwise fun g h => g.1 ≠ h.1
  mem_iff : ∀ g ∈ l,∀ i,i ∈ g.2 ↔ R i ∧ support i = g.1
  nonempty : ∀ g ∈ l,g.2.Nonempty
  covered : ∀ i,R i → ∃ g ∈ l,g.1 = support i

omit [DecidableEq δ] in
theorem Collected.congr {R' : ℕ → Prop} (h : Collected R support l) (hr : ∀ i,R i ↔ R' i) :
    Collected R' support l := by
  obtain rfl : R = R' := funext fun i => propext (hr i)
  exact h

omit [DecidableEq δ] in
theorem Collected.grouped (h : Collected R support l) :
    Grouped R support l where
  disjoint := h.distinct.imp_of_mem fun {g g'} hg hg' hne =>
    disjoint_left.mpr fun i hi hi' =>
      hne (((h.mem_iff g hg i).mp hi).2.symm.trans ((h.mem_iff g' hg' i).mp hi').2)
  mem_iff i := by
    constructor
    · rintro ⟨g,hg,hi⟩
      exact ((h.mem_iff g hg i).mp hi).1
    · intro hi
      obtain ⟨g,hg,hs⟩ := h.covered i hi
      exact ⟨g,hg,(h.mem_iff g hg i).mpr ⟨hi,hs.symm⟩⟩
  supported g hg i hi := ((h.mem_iff g hg i).mp hi).2.ge
  attained g hg := by
    obtain ⟨i,hi⟩ := h.nonempty g hg
    exact ⟨i,hi,((h.mem_iff g hg i).mp hi).2⟩

theorem mem_addSupport {g : SupportMap δ} (hd : l.Pairwise fun g h => g.1 ≠ h.1)
    (hg : g ∈ addSupport i s l) :
    (g ∈ l ∧ g.1 ≠ s) ∨ g.1 = s ∧
      (((∀ e ∈ l,e.1 ≠ s) ∧ g.2 = {i}) ∨ ∃ e ∈ l,e.1 = s ∧ g.2 = insert i e.2) := by
  induction l with
  | nil =>
    obtain rfl : g = (s,{i}) := by simpa [addSupport] using hg
    simp
  | cons e l ih =>
    rw [List.pairwise_cons] at hd
    by_cases he : e.1 = s
    · rw [addSupport,if_pos he] at hg
      rcases List.mem_cons.mp hg with rfl | hg
      · exact .inr ⟨he,.inr ⟨e,by simp,he,rfl⟩⟩
      · exact .inl ⟨by simp [hg],fun h => hd.1 g hg (he.trans h.symm)⟩
    · rw [addSupport,if_neg he] at hg
      rcases List.mem_cons.mp hg with rfl | hg
      · exact .inl ⟨by simp,he⟩
      · rcases ih hd.2 hg with ⟨hl,hne⟩ | ⟨hs,⟨hall,hi⟩ | ⟨e',he',hs',hi⟩⟩
        · exact .inl ⟨by simp [hl],hne⟩
        · exact .inr ⟨hs,.inl ⟨by simpa [he] using hall,hi⟩⟩
        · exact .inr ⟨hs,.inr ⟨e',by simp [he'],hs',hi⟩⟩

theorem addSupport_distinct (hd : l.Pairwise fun g h => g.1 ≠ h.1) :
    (addSupport i s l).Pairwise fun g h => g.1 ≠ h.1 := by
  induction l with
  | nil => simp [addSupport]
  | cons e l ih =>
    rw [List.pairwise_cons] at hd
    by_cases he : e.1 = s
    · rw [addSupport,if_pos he]
      exact List.pairwise_cons.mpr hd
    · rw [addSupport,if_neg he]
      refine List.pairwise_cons.mpr ⟨fun g hg => ?_,ih hd.2⟩
      rcases mem_addSupport hd.2 hg with ⟨hl,-⟩ | ⟨hs,-⟩
      · exact hd.1 g hl
      · exact hs ▸ he

theorem exists_mem_addSupport {t : Finset δ} (h : t = s ∨ ∃ g ∈ l,g.1 = t) :
    ∃ g ∈ addSupport i s l,g.1 = t := by
  induction l with
  | nil => simpa [addSupport,eq_comm] using h
  | cons e l ih =>
    by_cases he : e.1 = s
    · rw [addSupport,if_pos he]
      rcases h with rfl | ⟨g,hg,rfl⟩
      · exact ⟨_,List.mem_cons_self,he⟩
      · rcases List.mem_cons.mp hg with rfl | hg
        · exact ⟨_,List.mem_cons_self,rfl⟩
        · exact ⟨g,List.mem_cons_of_mem _ hg,rfl⟩
    · rw [addSupport,if_neg he]
      by_cases ht : e.1 = t
      · exact ⟨e,List.mem_cons_self,ht⟩
      · obtain ⟨g,hg,hgt⟩ := ih (h.imp_right fun ⟨g,hg,hgt⟩ => by
          rcases List.mem_cons.mp hg with rfl | hg
          · exact absurd hgt ht
          · exact ⟨g,hg,hgt⟩)
        exact ⟨g,List.mem_cons_of_mem _ hg,hgt⟩

theorem Collected.addSupport (h : Collected R support l) (hi : ¬R i) :
    Collected (fun j => R j ∨ j = i) support (addSupport i (support i) l) where
  distinct := addSupport_distinct h.distinct
  mem_iff g hg j := by
    rcases mem_addSupport h.distinct hg with ⟨hl,hne⟩ | ⟨hs,⟨hall,hj⟩ | ⟨e,he,hs',hj⟩⟩
    · rw [h.mem_iff g hl]
      constructor
      · exact fun ⟨hj,hs⟩ => ⟨.inl hj,hs⟩
      · rintro ⟨hj | rfl,hs⟩
        · exact ⟨hj,hs⟩
        · exact absurd hs.symm hne
    · rw [hj,hs,mem_singleton]
      constructor
      · rintro rfl
        exact ⟨.inr rfl,rfl⟩
      · rintro ⟨hr | rfl,hsup⟩
        · obtain ⟨e,he,hes⟩ := h.covered j hr
          exact absurd (hes.trans hsup) (hall e he)
        · rfl
    · rw [hj,hs,mem_insert,h.mem_iff e he,hs']
      constructor
      · rintro (rfl | ⟨hr,hsup⟩)
        · exact ⟨.inr rfl,rfl⟩
        · exact ⟨.inl hr,hsup⟩
      · rintro ⟨hr | rfl,hsup⟩
        · exact .inr ⟨hr,hsup⟩
        · exact .inl rfl
  nonempty g hg := by
    rcases mem_addSupport h.distinct hg with ⟨hl,-⟩ | ⟨-,⟨-,hj⟩ | ⟨e,-,-,hj⟩⟩
    · exact h.nonempty g hl
    · simp [hj]
    · simp [hj]
  covered j hj := by
    refine exists_mem_addSupport ?_
    rcases hj with hj | rfl
    · exact .inr (h.covered j hj)
    · exact .inl rfl

theorem collect_collected (reaches : ℕ → Bool) (support : ℕ → Finset δ) (n : ℕ) :
    Collected (fun i => i < n ∧ reaches i) support (collect reaches support n) := by
  induction n with
  | zero => constructor <;> simp [collect]
  | succ n ih =>
    have hstep : collect reaches support (n + 1) =
        if reaches n then addSupport n (support n) (collect reaches support n)
        else collect reaches support n := by
      simp [collect,List.range_succ]
    rw [hstep]
    split_ifs with hn
    · refine (ih.addSupport (by simp)).congr fun j => ?_
      rw [Nat.lt_succ_iff_lt_or_eq]
      constructor
      · rintro (⟨hj,hr⟩ | rfl)
        · exact ⟨.inl hj,hr⟩
        · exact ⟨.inr rfl,hn⟩
      · rintro ⟨hj | rfl,hr⟩
        · exact .inl ⟨hj,hr⟩
        · exact .inr rfl
    · refine ih.congr fun j => ?_
      rw [Nat.lt_succ_iff_lt_or_eq]
      constructor
      · exact fun ⟨hj,hr⟩ => ⟨.inl hj,hr⟩
      · rintro ⟨hj | rfl,hr⟩
        · exact ⟨hj,hr⟩
        · exact absurd hr hn

def Incomparable (a b : SupportMap δ) : Prop := ¬a.1 ⊆ b.1 ∧ ¬b.1 ⊆ a.1

/-- Nothing is merged, and no iterator is moved twice, when no set contains another. -/
theorem mergeFollowing_of_incomparable (h : ∀ b ∈ l,Incomparable a b) :
    mergeFollowing a l = some (a,l) := by
  induction l with
  | nil => rfl
  | cons b l ih =>
    rw [List.forall_mem_cons] at h
    simp [mergeFollowing,merge_eq_none h.1.1 h.1.2,ih h.2]

theorem mergeAll_of_incomparable (h : l.Pairwise Incomparable) : mergeAll l = some l := by
  induction l with
  | nil => simp [mergeAll]
  | cons a l ih =>
    rw [List.pairwise_cons] at h
    unfold mergeAll
    split
    · next hm => simp [mergeFollowing_of_incomparable h.1] at hm
    · next r hm =>
      obtain rfl : (a,l) = r := by
        simpa [mergeFollowing_of_incomparable h.1] using hm
      simp [ih h.2]

/-- The last entry is erased and the loop then increments the end iterator. -/
theorem mergeAll_pair (h : merge a b = some c) : mergeAll [a,b] = none := by
  unfold mergeAll
  split
  · rfl
  · next r hm => simp [mergeFollowing,h] at hm

section Correctness

variable (power : δ → BitVec 128 × BitVec 128) (vote stake : BitVec 128) (requestCount : ℕ)
  (weights : ℕ → Weights δ) (reachedQuorum : BitVec 128 → BitVec 128 → Bool)

/-- `indirect_*_support` of every request is the weight of its supporting delegates. -/
def Tallied : Prop :=
  ∀ i < requestCount,
    (weights i).indirectVoteSupport = ∑ d ∈ (weights i).supportingDelegates,(power d).1 ∧
    (weights i).indirectStakeSupport = ∑ d ∈ (weights i).supportingDelegates,(power d).2

/-- A larger vote and stake never lose a quorum. -/
def MonotoneQuorum : Prop :=
  ∀ v s v' s' : BitVec 128,v ≤ v' → s ≤ s' → reachedQuorum v s → reachedQuorum v' s'

/-- What the primary needs of the groups it re-proposes. -/
structure Correct (groups : List (SupportMap δ)) : Prop where
  covered : ∀ i < requestCount,reaches vote stake weights reachedQuorum i →
    ∃! k : Fin groups.length,i ∈ (groups.get k).2
  only : ∀ g ∈ groups,∀ i ∈ g.2,i < requestCount ∧ reaches vote stake weights reachedQuorum i
  supported : ∀ g ∈ groups,∀ i ∈ g.2,g.1 ⊆ (weights i).supportingDelegates
  quorum : ∀ g ∈ groups,reachedQuorum (vote + ∑ d ∈ g.1,(power d).1) (stake + ∑ d ∈ g.1,(power d).2)
  incomparable : groups.Pairwise Incomparable

variable {power vote stake requestCount weights reachedQuorum}

omit [DecidableEq δ] in
theorem Grouped.existsUnique (h : Grouped R support l) (hi : R i) :
    ∃! k : Fin l.length,i ∈ (l.get k).2 := by
  obtain ⟨g,hg,hig⟩ := (h.mem_iff i).mpr hi
  obtain ⟨k,rfl⟩ := List.get_of_mem hg
  refine ⟨k,hig,fun k' hk' => ?_⟩
  by_contra hne
  have hd := List.pairwise_iff_get.mp h.disjoint
  rcases lt_or_gt_of_ne hne with hlt | hlt
  · exact disjoint_left.mp (hd k' k hlt) hk' hig
  · exact disjoint_left.mp (hd k k' hlt) hig hk'

theorem generateSubsets_grouped {groups : List (SupportMap δ)}
    (hg : generateSubsets vote stake requestCount weights reachedQuorum = some groups) :
    Grouped (fun i => i < requestCount ∧ reaches vote stake weights reachedQuorum i)
      (fun i => (weights i).supportingDelegates) groups := by
  have hstart := (collect_collected (reaches vote stake weights reachedQuorum)
    (fun i => (weights i).supportingDelegates) requestCount).grouped
  have h := mergeAll_grouped (p := []) hg (by simpa using hstart)
  rwa [List.append_nil] at h

/-- Whenever the code returns, only the incomparability of the groups can be wrong. -/
theorem generateSubsets_sound {groups : List (SupportMap δ)}
    (ht : Tallied power requestCount weights)
    (hg : generateSubsets vote stake requestCount weights reachedQuorum = some groups)
    (hinc : groups.Pairwise Incomparable) :
    Correct power vote stake requestCount weights reachedQuorum groups := by
  have h := generateSubsets_grouped hg
  refine ⟨fun i hi hr => h.existsUnique ⟨hi,hr⟩,fun g hg i hi => (h.mem_iff i).mp ⟨g,hg,hi⟩,
    h.supported,fun g hg => ?_,hinc⟩
  obtain ⟨i,hi,hs⟩ := h.attained g hg
  obtain ⟨hlt,hr⟩ := (h.mem_iff i).mp ⟨g,hg,hi⟩
  obtain ⟨hv,hst⟩ := ht i hlt
  rw [← hs,← hv,← hst]
  exact hr

theorem generateSubsets_of_antichain {S : Set (Finset δ)} (hS : IsAntichain (· ⊆ ·) S)
    (ht : Tallied power requestCount weights)
    (hmem : ∀ i < requestCount,reaches vote stake weights reachedQuorum i →
      (weights i).supportingDelegates ∈ S) :
    ∃ groups,generateSubsets vote stake requestCount weights reachedQuorum = some groups ∧
      Correct power vote stake requestCount weights reachedQuorum groups := by
  have hc := collect_collected (reaches vote stake weights reachedQuorum)
    (fun i => (weights i).supportingDelegates) requestCount
  have hset : ∀ g ∈ collect (reaches vote stake weights reachedQuorum)
      (fun i => (weights i).supportingDelegates) requestCount,g.1 ∈ S := by
    intro g hg
    obtain ⟨i,hi⟩ := hc.nonempty g hg
    obtain ⟨⟨hlt,hr⟩,hs⟩ := (hc.mem_iff g hg i).mp hi
    exact hs ▸ hmem i hlt hr
  have hinc := hc.distinct.imp_of_mem fun {g g'} hg hg' hne =>
    (⟨hS (hset g hg) (hset g' hg') hne,hS (hset g' hg') (hset g hg) (Ne.symm hne)⟩ :
      Incomparable g g')
  have hall := mergeAll_of_incomparable hinc
  exact ⟨_,hall,generateSubsets_sound ht hall hinc⟩

end Correctness

def pairWeights (x y : Finset δ) (i : ℕ) : Weights δ :=
  { supportingDelegates := if i = 0 then x else y }

theorem generateSubsets_pair {x y : Finset δ} (hxy : x ⊆ y) (hne : x ≠ y) :
    generateSubsets 0 0 2 (pairWeights x y) (fun _ _ => true) = none := by
  have hc : collect (fun _ => true) (fun i => (pairWeights x y i).supportingDelegates) 2 =
      [(x,{0}),(y,{1})] := by
    simp [collect,List.range_succ,addSupport,pairWeights,hne]
  have hm : merge (x,{0}) (y,{1}) = some (x,{0} ∪ {1}) := by
    simp [merge,hxy,(card_le_card hxy).not_gt]
  exact (congrArg mergeAll hc).trans (mergeAll_pair hm)

/-- Grouping is correct for supports from `S` exactly when none contains another. -/
theorem generateSubsets_correct_iff_isAntichain (S : Set (Finset δ)) :
    (∀ power : δ → BitVec 128 × BitVec 128,∀ (vote stake : BitVec 128) (requestCount : ℕ)
      (weights : ℕ → Weights δ) (reachedQuorum : BitVec 128 → BitVec 128 → Bool),
      MonotoneQuorum reachedQuorum → Tallied power requestCount weights →
      (∀ i < requestCount,reaches vote stake weights reachedQuorum i →
        (weights i).supportingDelegates ∈ S) →
      ∃ groups,generateSubsets vote stake requestCount weights reachedQuorum = some groups ∧
        Correct power vote stake requestCount weights reachedQuorum groups) ↔
    IsAntichain (· ⊆ ·) S := by
  constructor
  · intro h x hx y hy hne hxy
    obtain ⟨groups,hg,-⟩ := h (fun _ => (0,0)) 0 0 2 (pairWeights x y) (fun _ _ => true)
      (fun _ _ _ _ _ _ _ => rfl) (fun i _ => by simp [pairWeights])
      (fun i _ _ => by simp only [pairWeights]; split <;> assumption)
    rw [generateSubsets_pair hxy hne] at hg
    cases hg
  · intro hS power vote stake n weights rq _ ht hmem
    exact generateSubsets_of_antichain hS ht hmem

/-- Delegates of weight one: three support the first request, a fourth the others as well. -/
def nestedWeights (i : ℕ) : Weights (Fin 32) :=
  if i = 0 then
    { indirectVoteSupport := 3,indirectStakeSupport := 3,supportingDelegates := {0,1,2} }
  else if i = 1 then
    { indirectVoteSupport := 4,indirectStakeSupport := 4,supportingDelegates := {0,1,2,3} }
  else
    { indirectVoteSupport := 5,indirectStakeSupport := 5,supportingDelegates := {0,1,2,3,4} }

/-- With two requests the end iterator is incremented; with three a superset is skipped. -/
theorem generateSubsets_nested :
    generateSubsets 4 4 2 nestedWeights (fun v s => decide (7 ≤ v ∧ 7 ≤ s)) = none ∧
    generateSubsets 4 4 3 nestedWeights (fun v s => decide (7 ≤ v ∧ 7 ≤ s)) =
      some [({0,1,2},{0,1}),({0,1,2,3,4},{2})] := by
  decide +kernel

end LogosCore.Subsets
