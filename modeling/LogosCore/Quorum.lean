import LogosCore.WeightedQuorum

/-!
# Quorum thresholds

`OnCurrentEpochSet` and `SetQuorum` of the primary delegate and `ValidateQuorum` of the backup
delegates, on 128-bit weights with wrap-around, and when two sets of delegates that pass the
check must share more than the tolerated faulty weight.
-/

namespace LogosCore.Quorum

open Finset WeightedQuorum

abbrev numDelegates : ℕ := 32

abbrev DelegateId := Fin numDelegates

instance : NeZero numDelegates := ⟨by decide⟩

abbrev ParticipationMap := Finset DelegateId

structure Weight where
  voteWeight : BitVec 128
  stakeWeight : BitVec 128
  deriving DecidableEq

/-- The members of the primary delegate that `OnCurrentEpochSet` assigns. -/
structure Thresholds where
  weights : DelegateId → Weight
  voteTotal : BitVec 128
  stakeTotal : BitVec 128
  myVote : BitVec 128
  myStake : BitVec 128
  voteMaxFault : BitVec 128
  voteQuorum : BitVec 128
  stakeMaxFault : BitVec 128
  stakeQuorum : BitVec 128

/-- `SetQuorum`: the tolerated fault and the quorum for a total. -/
def setQuorum (total : BitVec 128) : BitVec 128 × BitVec 128 :=
  let maxFault := (total - 1) / 3
  (maxFault,maxFault * 2 + 1)

def onCurrentEpochSet (delegateId : DelegateId) (weights : DelegateId → Weight) : Thresholds :=
  let voteTotal := maskedSum (fun i => (weights i).voteWeight) Finset.univ
  let stakeTotal := maskedSum (fun i => (weights i).stakeWeight) Finset.univ
  { weights
    voteTotal
    stakeTotal
    myVote := (weights delegateId).voteWeight
    myStake := (weights delegateId).stakeWeight
    voteMaxFault := (setQuorum voteTotal).1
    voteQuorum := (setQuorum voteTotal).2
    stakeMaxFault := (setQuorum stakeTotal).1
    stakeQuorum := (setQuorum stakeTotal).2 }

def Thresholds.reachedQuorum (p : Thresholds) (vote stake : BitVec 128) : Bool :=
  decide (p.voteQuorum ≤ vote) && decide (p.stakeQuorum ≤ stake)

/-- The vote and stake of the delegates of a participation map, summed modulo `2 ^ 128`. -/
def Thresholds.voteOf (p : Thresholds) (map : ParticipationMap) : BitVec 128 :=
  maskedSum (fun i => (p.weights i).voteWeight) map

def Thresholds.stakeOf (p : Thresholds) (map : ParticipationMap) : BitVec 128 :=
  maskedSum (fun i => (p.weights i).stakeWeight) map

def Thresholds.validateQuorum (p : Thresholds) (map : ParticipationMap) : Bool :=
  p.reachedQuorum (p.voteOf map) (p.stakeOf map)

/-- Two sets that pass the check share more than the tolerated fault, in vote and in stake. -/
def QuorumIntersection (weights : DelegateId → Weight) : Prop :=
  ∀ (self : DelegateId) (A B : ParticipationMap),(onCurrentEpochSet self weights).validateQuorum A →
    (onCurrentEpochSet self weights).validateQuorum B →
    (onCurrentEpochSet self weights).voteMaxFault.toNat < ∑ i ∈ A ∩ B,(weights i).voteWeight.toNat ∧
    (onCurrentEpochSet self weights).stakeMaxFault.toNat < ∑ i ∈ A ∩ B,(weights i).stakeWeight.toNat

/-- The exact totals, as naturals. -/
def exactVoteTotal (weights : DelegateId → Weight) : ℕ := ∑ i,(weights i).voteWeight.toNat

def exactStakeTotal (weights : DelegateId → Weight) : ℕ := ∑ i,(weights i).stakeWeight.toNat

section Naturals

/-- `SetQuorum` on an exact total. -/
def maxFaultOf (total : ℕ) : ℕ := (total + (2 ^ 128 - 1)) % 2 ^ 128 / 3

def quorumOf (total : ℕ) : ℕ := 2 * maxFaultOf total + 1

theorem setQuorum_fst_toNat (t : BitVec 128) : (setQuorum t).1.toNat = maxFaultOf t.toNat := by
  have h1 : (1 : BitVec 128).toNat = 1 := rfl
  have h3 : (3 : BitVec 128).toNat = 3 := rfl
  simp only [setQuorum,BitVec.toNat_udiv,BitVec.toNat_sub,maxFaultOf,h1,h3]
  omega

theorem setQuorum_snd_toNat (t : BitVec 128) : (setQuorum t).2.toNat = quorumOf t.toNat := by
  have hf := setQuorum_fst_toNat t
  have hle : maxFaultOf t.toNat < 2 ^ 127 := by
    unfold maxFaultOf
    omega
  have h1 : (1 : BitVec 128).toNat = 1 := rfl
  have h2 : (2 : BitVec 128).toNat = 2 := rfl
  simp only [setQuorum] at hf ⊢
  simp only [BitVec.toNat_add,BitVec.toNat_mul,hf,quorumOf,h1,h2]
  omega

theorem maxFaultOf_mod (T : ℕ) : maxFaultOf (T % 2 ^ 128) = maxFaultOf T := by
  unfold maxFaultOf
  omega

theorem quorumOf_mod (T : ℕ) : quorumOf (T % 2 ^ 128) = quorumOf T := by
  rw [quorumOf,maxFaultOf_mod,quorumOf]

def Passes (v : DelegateId → ℕ) (A : ParticipationMap) : Prop :=
  quorumOf (∑ i,v i) ≤ (∑ i ∈ A,v i) % 2 ^ 128

def Shares (v : DelegateId → ℕ) (A B : ParticipationMap) : Prop :=
  maxFaultOf (∑ i,v i) < ∑ i ∈ A ∩ B,v i

def Intersects (v s : DelegateId → ℕ) : Prop :=
  ∀ A B,Passes v A → Passes s A → Passes v B → Passes s B → Shares v A B ∧ Shares s A B

theorem Intersects.swap {v s : DelegateId → ℕ} (h : Intersects v s) : Intersects s v :=
  fun A B hsA hvA hsB hvB => (h A B hvA hsA hvB hsB).symm

end Naturals

theorem validateQuorum_iff (self : DelegateId) (weights : DelegateId → Weight)
    (A : ParticipationMap) : (onCurrentEpochSet self weights).validateQuorum A ↔
      Passes (fun i => (weights i).voteWeight.toNat) A ∧
      Passes (fun i => (weights i).stakeWeight.toNat) A := by
  simp only [Thresholds.validateQuorum,Thresholds.reachedQuorum,Thresholds.voteOf,
    Thresholds.stakeOf,onCurrentEpochSet,Bool.and_eq_true,decide_eq_true_eq,BitVec.le_def,
    setQuorum_snd_toNat,maskedSum_toNat,quorumOf_mod,Passes]

theorem quorumIntersection_iff_intersects (weights : DelegateId → Weight) :
    QuorumIntersection weights ↔ Intersects (fun i => (weights i).voteWeight.toNat)
      (fun i => (weights i).stakeWeight.toNat) := by
  have hv : ∀ self,(onCurrentEpochSet self weights).voteMaxFault.toNat =
      maxFaultOf (∑ i,(weights i).voteWeight.toNat) := fun self => by
    simp only [onCurrentEpochSet,setQuorum_fst_toNat,maskedSum_toNat,maxFaultOf_mod]
  have hs : ∀ self,(onCurrentEpochSet self weights).stakeMaxFault.toNat =
      maxFaultOf (∑ i,(weights i).stakeWeight.toNat) := fun self => by
    simp only [onCurrentEpochSet,setQuorum_fst_toNat,maskedSum_toNat,maxFaultOf_mod]
  simp only [QuorumIntersection,validateQuorum_iff,hv,hs,Intersects,Shares]
  constructor
  · intro h A B hvA hsA hvB hsB
    exact h 0 A B ⟨hvA,hsA⟩ ⟨hvB,hsB⟩
  · intro h _ A B hA hB
    exact h A B hA.1 hA.2 hB.1 hB.2

section Totals

/-- Totals `3 f + 1` that a 128-bit sum can still represent, or just overflows. -/
def Balanced (total : ℕ) : Prop := total % 3 = 1 ∧ total ≤ 2 ^ 128

/-- Totals of 32 weights of which at most one can be far from `2 ^ 128`. -/
def Saturated (total : ℕ) : Prop := 31 * (2 ^ 128 - 1) + 14 < total

/-- The totals for which every weight vector has quorum intersection. -/
def Intersecting (voteTotal stakeTotal : ℕ) : Prop :=
  voteTotal = 0 ∨ stakeTotal = 0 ∨ Balanced voteTotal ∧ Balanced stakeTotal ∨
    Balanced stakeTotal ∧ Saturated voteTotal ∨ Balanced voteTotal ∧ Saturated stakeTotal

instance (total : ℕ) : Decidable (Balanced total) := inferInstanceAs (Decidable (_ ∧ _))

instance (total : ℕ) : Decidable (Saturated total) := inferInstanceAs (Decidable (_ < _))

theorem three_mul_maxFaultOf_lt (T : ℕ) : 3 * maxFaultOf T < 2 ^ 128 := by
  unfold maxFaultOf
  omega

variable {T Ts Tv : ℕ}

theorem maxFaultOf_of_lt (h0 : 0 < T) (hT : T < 2 ^ 128) : maxFaultOf T = (T - 1) / 3 := by
  unfold maxFaultOf
  omega

theorem two_mul_quorumOf_le (hT : 2 ^ 128 < T) : 2 * quorumOf T ≤ T := by
  unfold quorumOf maxFaultOf
  omega

variable {v s : DelegateId → ℕ} {A B : ParticipationMap}

theorem not_passes_of_total_zero (h : ∑ i,v i = 0) : ¬Passes v A := by
  have hA : ∑ i ∈ A,v i ≤ ∑ i,v i := sum_le_sum_of_subset (subset_univ _)
  have hq : 0 < quorumOf (∑ i,v i) := by simp [quorumOf]
  unfold Passes
  omega

theorem Passes.le_sum (h : Passes v A) : quorumOf (∑ i,v i) ≤ ∑ i ∈ A,v i :=
  h.trans (Nat.mod_le _ _)

theorem shares_of_balanced (hT : Balanced (∑ i,v i)) (hA : Passes v A) (hB : Passes v B) :
    Shares v A B := by
  refine lt_sum_inter hA.le_sum hB.le_sum ?_
  obtain ⟨hmod,hle⟩ := hT
  unfold quorumOf maxFaultOf
  omega

/-- A set passes only by being large once it holds a delegate of small weight. -/
theorem Passes.card_le {d : DelegateId} (hv : ∀ i,v i < 2 ^ 128) (hT : Saturated (∑ i,v i))
    (hA : Passes v A) (hd : d ∈ A) (hlow : v d ≤ maxFaultOf (∑ i,v i)) : 17 ≤ A.card := by
  have hgap : ∀ S : ParticipationMap,
      ∑ i ∈ S,v i + ∑ i ∈ S,(2 ^ 128 - 1 - v i) = S.card * (2 ^ 128 - 1) := fun S => by
    rw [← sum_add_distrib,sum_const_nat (m := 2 ^ 128 - 1)]
    intro i _
    have := hv i
    omega
  have hdA : 2 ^ 128 - 1 - v d ≤ ∑ i ∈ A,(2 ^ 128 - 1 - v i) :=
    single_le_sum (f := fun i => 2 ^ 128 - 1 - v i) (fun _ _ => Nat.zero_le _) hd
  have hAall : ∑ i ∈ A,(2 ^ 128 - 1 - v i) ≤ ∑ i,(2 ^ 128 - 1 - v i) :=
    sum_le_sum_of_subset (subset_univ _)
  have hall := hgap univ
  have hAsum := hgap A
  simp only [card_univ,Fintype.card_fin,numDelegates] at hall
  unfold Saturated at hT
  unfold Passes quorumOf at hA
  by_contra hlt
  have hmod : (∑ i ∈ A,v i) % 2 ^ 128 = 2 ^ 128 - A.card - ∑ i ∈ A,(2 ^ 128 - 1 - v i) := by
    omega
  omega

theorem shares_of_saturated (hv : ∀ i,v i < 2 ^ 128) (hT : Saturated (∑ i,v i))
    (hA : Passes v A) (hB : Passes v B) (hne : (A ∩ B).Nonempty) : Shares v A B := by
  obtain ⟨d,hd⟩ := hne
  have hd' := mem_inter.mp hd
  by_contra hlow
  unfold Shares at hlow
  have hvd : v d ≤ ∑ i ∈ A ∩ B,v i := single_le_sum (fun _ _ => Nat.zero_le _) hd
  have hcA := hA.card_le hv hT hd'.1 (by omega)
  have hcB := hB.card_le hv hT hd'.2 (by omega)
  have hunion : (A ∪ B).card ≤ 32 := by simpa using card_le_univ (A ∪ B)
  have hcount := card_union_add_card_inter A B
  -- a second shared delegate, and two weights together already exceed the fault
  obtain ⟨e,he,hne⟩ := exists_mem_ne (s := A ∩ B) (by omega) d
  have hpair : v d + v e ≤ ∑ i ∈ A ∩ B,v i := by
    rw [← sum_pair hne.symm]
    exact sum_le_sum_of_subset (by simp [insert_subset_iff,hd,he])
  have hrest : ∑ i,v i ≤ v d + v e + 30 * (2 ^ 128 - 1) := by
    rw [← sum_add_sum_compl {d,e},sum_pair hne.symm]
    have hle := sum_le_card_nsmul ({d,e} : ParticipationMap)ᶜ v (2 ^ 128 - 1)
      (fun i _ => by have := hv i; omega)
    rw [card_compl,card_pair hne.symm,Fintype.card_fin,smul_eq_mul] at hle
    exact Nat.add_le_add_left hle _
  have := three_mul_maxFaultOf_lt (∑ i,v i)
  unfold Saturated at hT
  omega

theorem intersects_of_intersecting (hv : ∀ i,v i < 2 ^ 128) (hs : ∀ i,s i < 2 ^ 128)
    (h : Intersecting (∑ i,v i) (∑ i,s i)) : Intersects v s := by
  intro A B hvA hsA hvB hsB
  rcases h with h | h | ⟨hv1,hs1⟩ | ⟨hs1,hv1⟩ | ⟨hv1,hs1⟩
  · exact absurd hvA (not_passes_of_total_zero h)
  · exact absurd hsA (not_passes_of_total_zero h)
  · exact ⟨shares_of_balanced hv1 hvA hvB,shares_of_balanced hs1 hsA hsB⟩
  · have hshare := shares_of_balanced hs1 hsA hsB
    refine ⟨shares_of_saturated hv hv1 hvA hvB ?_,hshare⟩
    exact nonempty_of_sum_ne_zero (Nat.ne_zero_of_lt hshare)
  · have hshare := shares_of_balanced hv1 hvA hvB
    refine ⟨hshare,shares_of_saturated hs hs1 hsA hsB ?_⟩
    exact nonempty_of_sum_ne_zero (Nat.ne_zero_of_lt hshare)

theorem exists_vector {a b c : ℕ} (ha : a < 2 ^ 128) (hb : b < 2 ^ 128) (hc : c < 2 ^ 128)
    (hlow : a + b + c ≤ T) (hhigh : T ≤ a + b + c + 29 * (2 ^ 128 - 1)) :
    ∃ v : DelegateId → ℕ,(∀ i,v i < 2 ^ 128) ∧ ∑ i,v i = T ∧ v 0 = a ∧ v 1 = b ∧ v 2 = c := by
  obtain ⟨v,hv,h⟩ := exists_weights_three (n := 29) (Nat.le_sub_one_of_lt ha)
    (Nat.le_sub_one_of_lt hb) (Nat.le_sub_one_of_lt hc) hlow hhigh
  exact ⟨v,fun i => Nat.lt_of_le_sub_one (by norm_num) (hv i),h⟩

theorem passes_pair {i j : DelegateId} (hij : i ≠ j)
    (h : quorumOf (∑ i,v i) ≤ (v i + v j) % 2 ^ 128) : Passes v {i,j} := by
  rwa [Passes,sum_pair hij]

/-- For a positive total the first delegate can carry both of two sets past the quorum. -/
theorem exists_passing (h0 : 0 < T) (hT : T ≤ 32 * (2 ^ 128 - 1)) :
    ∃ v : DelegateId → ℕ,(∀ i,v i < 2 ^ 128) ∧ ∑ i,v i = T ∧ Passes v {0,1} ∧ Passes v {0,2} := by
  have hf := three_mul_maxFaultOf_lt T
  obtain ⟨a,b,ha,hb,hlow,hhigh,hq⟩ : ∃ a b,a < 2 ^ 128 ∧ b < 2 ^ 128 ∧ a + b + b ≤ T ∧
      T ≤ a + b + b + 29 * (2 ^ 128 - 1) ∧ quorumOf T ≤ (a + b) % 2 ^ 128 := by
    rcases lt_or_ge T (2 ^ 128) with hsmall | hbig
    · have := maxFaultOf_of_lt h0 hsmall
      exact ⟨T,0,by omega,by omega,by omega,by omega,by unfold quorumOf; omega⟩
    · rcases le_or_gt T (30 * (2 ^ 128 - 1)) with hmid | hlarge
      · exact ⟨2 ^ 128 - 1,0,by omega,by omega,by omega,by omega,by unfold quorumOf; omega⟩
      · exact ⟨2 ^ 128 - 1,2 ^ 128 - 1,by omega,by omega,by omega,by omega,by
          unfold quorumOf; omega⟩
  obtain ⟨v,hv,hsum,h0',h1,h2⟩ := exists_vector ha hb hb hlow hhigh
  refine ⟨v,hv,hsum,passes_pair (by decide) ?_,passes_pair (by decide) ?_⟩
  · rw [hsum,h0',h1]
    exact hq
  · rw [hsum,h0',h2]
    exact hq

/-- Below `2 ^ 128` a total other than `3 f + 1` lets quorums share weight `f`; above, one is met
twice. -/
theorem exists_sharing_too_little (h0 : 0 < T)
    (hT : T < 2 ^ 128 ∧ T % 3 ≠ 1 ∨ 2 ^ 128 < T ∧ T ≤ 31 * (2 ^ 128 - 1)) :
    ∃ v : DelegateId → ℕ,(∀ i,v i < 2 ^ 128) ∧ ∑ i,v i = T ∧ Passes v {0,1} ∧
      Passes v {0,2} ∧ ¬Shares v {0,1} {0,2} := by
  have hf := three_mul_maxFaultOf_lt T
  obtain ⟨a,b,c,haf,hb,hc,hlow,hhigh,hqb,hqc⟩ : ∃ a b c,a ≤ maxFaultOf T ∧ b < 2 ^ 128 ∧
      c < 2 ^ 128 ∧ a + b + c ≤ T ∧ T ≤ a + b + c + 29 * (2 ^ 128 - 1) ∧
      quorumOf T ≤ (a + b) % 2 ^ 128 ∧ quorumOf T ≤ (a + c) % 2 ^ 128 := by
    rcases hT with ⟨hsmall,hmod⟩ | ⟨hbig,htop⟩
    · have := maxFaultOf_of_lt h0 hsmall
      exact ⟨maxFaultOf T,maxFaultOf T + 1,T - 2 * maxFaultOf T - 1,le_rfl,by omega,by omega,
        by omega,by omega,by unfold quorumOf; omega,by unfold quorumOf; omega⟩
    · have hq := two_mul_quorumOf_le hbig
      have hqlt : quorumOf T < 2 ^ 128 := by
        unfold quorumOf
        omega
      rcases le_or_gt T (2 * quorumOf T + 29 * (2 ^ 128 - 1)) with hmid | hlarge
      · exact ⟨0,quorumOf T,quorumOf T,by omega,by omega,by omega,by omega,by omega,by omega,
          by omega⟩
      · exact ⟨0,2 ^ 128 - 1,2 ^ 128 - 1,by omega,by omega,by omega,by omega,by omega,by omega,
          by omega⟩
  obtain ⟨v,hv,hsum,h0',h1,h2⟩ := exists_vector (by omega) hb hc hlow hhigh
  refine ⟨v,hv,hsum,passes_pair (by decide) ?_,passes_pair (by decide) ?_,?_⟩
  · rw [hsum,h0',h1]
    exact hqb
  · rw [hsum,h0',h2]
    exact hqc
  · have hinter : ({0,1} : ParticipationMap) ∩ {0,2} = {0} := by decide
    rw [Shares,hinter,sum_singleton,hsum,h0']
    omega

/-- Two weight vectors with the given totals for which the intersection fails. -/
def Violated (voteTotal stakeTotal : ℕ) : Prop :=
  ∃ v s : DelegateId → ℕ,(∀ i,v i < 2 ^ 128) ∧ (∀ i,s i < 2 ^ 128) ∧ ∑ i,v i = voteTotal ∧
    ∑ i,s i = stakeTotal ∧ ¬Intersects v s

theorem Violated.swap : Violated Tv Ts → Violated Ts Tv := by
  rintro ⟨v,s,hv,hs,hTv,hTs,h⟩
  exact ⟨s,v,hs,hv,hTs,hTv,fun h' => h h'.swap⟩

theorem violated_of_vote (hv : 0 < Tv) (hs : 0 < Ts) (hsle : Ts ≤ 32 * (2 ^ 128 - 1))
    (h : Tv < 2 ^ 128 ∧ Tv % 3 ≠ 1 ∨ 2 ^ 128 < Tv ∧ Tv ≤ 31 * (2 ^ 128 - 1)) : Violated Tv Ts := by
  obtain ⟨v,hvlt,hvsum,hv1,hv2,hshare⟩ := exists_sharing_too_little hv h
  obtain ⟨s,hslt,hssum,hs1,hs2⟩ := exists_passing hs hsle
  exact ⟨v,s,hvlt,hslt,hvsum,hssum,fun hi => hshare (hi _ _ hv1 hs1 hv2 hs2).1⟩

theorem exists_large_pair (hT : 2 ^ 128 < T) (hle : T ≤ 32 * (2 ^ 128 - 1)) :
    ∃ v : DelegateId → ℕ,(∀ i,v i < 2 ^ 128) ∧ ∑ i,v i = T ∧ Passes v {1} ∧ Passes v {2} := by
  have hf := three_mul_maxFaultOf_lt T
  have hq := two_mul_quorumOf_le hT
  have hqlt : quorumOf T < 2 ^ 128 := by
    unfold quorumOf
    omega
  obtain ⟨a,b,ha,hb,hlow,hhigh,hqb⟩ : ∃ a b,a < 2 ^ 128 ∧ b < 2 ^ 128 ∧ a + b + b ≤ T ∧
      T ≤ a + b + b + 29 * (2 ^ 128 - 1) ∧ quorumOf T ≤ b := by
    rcases le_or_gt T (2 * quorumOf T + 29 * (2 ^ 128 - 1)) with hmid | hlarge
    · exact ⟨0,quorumOf T,by omega,by omega,by omega,by omega,le_rfl⟩
    · exact ⟨2 ^ 128 - 1,2 ^ 128 - 1,by omega,by omega,by omega,by omega,by omega⟩
  obtain ⟨v,hv,hsum,-,h1,h2⟩ := exists_vector ha hb hb hlow hhigh
  refine ⟨v,hv,hsum,?_,?_⟩
  · rw [Passes,sum_singleton,hsum,h1,Nat.mod_eq_of_lt hb]
    exact hqb
  · rw [Passes,sum_singleton,hsum,h2,Nat.mod_eq_of_lt hb]
    exact hqb

theorem violated_of_large (hv : 2 ^ 128 < Tv) (hvle : Tv ≤ 32 * (2 ^ 128 - 1)) (hs : 2 ^ 128 < Ts)
    (hsle : Ts ≤ 32 * (2 ^ 128 - 1)) : Violated Tv Ts := by
  obtain ⟨v,hvlt,hvsum,hv1,hv2⟩ := exists_large_pair hv hvle
  obtain ⟨s,hslt,hssum,hs1,hs2⟩ := exists_large_pair hs hsle
  refine ⟨v,s,hvlt,hslt,hvsum,hssum,fun hi => ?_⟩
  have hshare := (hi _ _ hv1 hs1 hv2 hs2).1
  have hinter : ({1} : ParticipationMap) ∩ {2} = ∅ := by decide
  simp [Shares,hinter] at hshare

def lowHalf : ParticipationMap := insert 0 (Finset.Icc 1 15)

def highHalf : ParticipationMap := insert 0 (Finset.Icc 16 31)

theorem lowHalf_inter_highHalf : lowHalf ∩ highHalf = {0} := by decide

/-- All weights at the maximum but that of delegate 0. -/
def topVector (j : ℕ) (i : DelegateId) : ℕ := if i = 0 then j else 2 ^ 128 - 1

theorem topVector_sum (j : ℕ) {S : ParticipationMap} (h0 : 0 ∉ S) :
    ∑ i ∈ insert 0 S,topVector j i = j + S.card * (2 ^ 128 - 1) := by
  rw [sum_insert h0,sum_const_nat (m := 2 ^ 128 - 1)]
  · simp [topVector]
  · intro i hi
    rw [topVector,if_neg]
    rintro rfl
    exact h0 hi

theorem topVector_total (j : ℕ) : ∑ i,topVector j i = j + 31 * (2 ^ 128 - 1) := by
  have huniv : (univ : ParticipationMap) = insert 0 (Finset.Icc 1 31) := by decide
  rw [huniv,topVector_sum j (by decide)]
  rfl

/-- Stake held by delegate 0, up to one unit in each half. -/
theorem exists_balanced_halves (h0 : 0 < T) (hT : T ≤ 2 ^ 128) :
    ∃ s : DelegateId → ℕ,(∀ i,s i < 2 ^ 128) ∧ ∑ i,s i = T ∧ Passes s lowHalf ∧
      Passes s highHalf := by
  have hsplit : ∀ (a b c : ℕ) (S : ParticipationMap),
      ∑ i ∈ S,(if i = 0 then a else if i = 1 then b else if i = 16 then c else 0) =
        (if 0 ∈ S then a else 0) + (if 1 ∈ S then b else 0) + (if 16 ∈ S then c else 0) := by
    intro a b c S
    rw [← sum_ite_eq' S 0 fun _ => a,← sum_ite_eq' S 1 fun _ => b,
      ← sum_ite_eq' S 16 fun _ => c,← sum_add_distrib,← sum_add_distrib]
    refine sum_congr rfl fun i _ => ?_
    by_cases hi0 : i = 0
    · subst hi0
      simp
    · by_cases hi1 : i = 1
      · subst hi1
        simp
      · simp [hi0,hi1]
  obtain ⟨a,b,ha,hb,hab,hq⟩ : ∃ a b,a < 2 ^ 128 ∧ b ≤ 1 ∧ a + b + b = T ∧
      quorumOf T ≤ (a + b) % 2 ^ 128 := by
    rcases Nat.lt_or_eq_of_le hT with hlt | rfl
    · have := maxFaultOf_of_lt h0 hlt
      exact ⟨T,0,by omega,by omega,by omega,by unfold quorumOf; omega⟩
    · exact ⟨2 ^ 128 - 2,1,by omega,by omega,by omega,by decide⟩
  refine ⟨fun i => if i = 0 then a else if i = 1 then b else if i = 16 then b else 0,?_,?_,?_,?_⟩
  · intro i
    dsimp only
    split_ifs <;> omega
  · simpa [hsplit] using hab
  · have hl0 : (0 : DelegateId) ∈ lowHalf ∧ (1 : DelegateId) ∈ lowHalf ∧
        (16 : DelegateId) ∉ lowHalf := by decide
    simpa [Passes,hsplit,hl0,hab] using hq
  · have hh0 : (0 : DelegateId) ∈ highHalf ∧ (1 : DelegateId) ∉ highHalf ∧
        (16 : DelegateId) ∈ highHalf := by decide
    simpa [Passes,hsplit,hh0,hab] using hq

theorem violated_of_corner (hlow : 31 * (2 ^ 128 - 1) < Tv) (hhigh : ¬Saturated Tv) (hs : 0 < Ts)
    (hsle : Ts ≤ 2 ^ 128) : Violated Tv Ts := by
  obtain ⟨j,rfl⟩ : ∃ j,Tv = j + 31 * (2 ^ 128 - 1) := ⟨Tv - 31 * (2 ^ 128 - 1),by omega⟩
  unfold Saturated at hhigh
  obtain ⟨s,hslt,hssum,hs1,hs2⟩ := exists_balanced_halves hs hsle
  have hpass : ∀ k,15 ≤ k → k ≤ 16 → ∀ S : ParticipationMap,0 ∉ S → S.card = k →
      Passes (topVector j) (insert 0 S) := by
    intro k h15 h16 S h0 hk
    rw [Passes,topVector_sum j h0,topVector_total,hk]
    unfold quorumOf maxFaultOf
    interval_cases k <;> omega
  refine ⟨topVector j,s,?_,hslt,topVector_total j,hssum,fun hi => ?_⟩
  · intro i
    unfold topVector
    split_ifs <;> omega
  · have hshare := (hi lowHalf highHalf (hpass 15 (by omega) (by omega) _ (by decide) rfl) hs1
      (hpass 16 (by omega) (by omega) _ (by decide) rfl) hs2).1
    rw [Shares,lowHalf_inter_highHalf,sum_singleton,topVector_total,topVector,if_pos rfl] at hshare
    unfold maxFaultOf at hshare
    omega

theorem violated_of_not_intersecting (hvle : Tv ≤ 32 * (2 ^ 128 - 1))
    (hsle : Ts ≤ 32 * (2 ^ 128 - 1)) (h : ¬Intersecting Tv Ts) : Violated Tv Ts := by
  simp only [Intersecting,Balanced,Saturated,not_or,not_and] at h
  obtain ⟨hv0,hs0,hbal,hvsat,hssat⟩ := h
  have hv : 0 < Tv := Nat.pos_of_ne_zero hv0
  have hs : 0 < Ts := Nat.pos_of_ne_zero hs0
  by_cases hvlow : Tv < 2 ^ 128 ∧ Tv % 3 ≠ 1
  · exact violated_of_vote hv hs hsle (.inl hvlow)
  by_cases hslow : Ts < 2 ^ 128 ∧ Ts % 3 ≠ 1
  · exact (violated_of_vote hs hv hvle (.inl hslow)).swap
  rcases Nat.lt_or_ge (2 ^ 128) Tv with hvbig | hvsmall
  · rcases Nat.lt_or_ge (2 ^ 128) Ts with hsbig | hssmall
    · exact violated_of_large hvbig hvle hsbig hsle
    · by_cases hmid : Tv ≤ 31 * (2 ^ 128 - 1)
      · exact violated_of_vote hv hs hsle (.inr ⟨hvbig,hmid⟩)
      · exact violated_of_corner (by omega) (hvsat (by omega)) hs hssmall
  · have hsbig : 2 ^ 128 < Ts := by omega
    by_cases hmid : Ts ≤ 31 * (2 ^ 128 - 1)
    · exact (violated_of_vote hs hv hvle (.inr ⟨hsbig,hmid⟩)).swap
    · exact (violated_of_corner (by omega) (hssat (by omega)) hv hvsmall).swap

end Totals

def weightsOf (v s : DelegateId → ℕ) (i : DelegateId) : Weight :=
  ⟨BitVec.ofNat 128 (v i),BitVec.ofNat 128 (s i)⟩

theorem exactTotal_le (f : DelegateId → BitVec 128) : ∑ i,(f i).toNat ≤ 32 * (2 ^ 128 - 1) := by
  have h := sum_le_card_nsmul univ (fun i => (f i).toNat) (2 ^ 128 - 1)
    (fun i _ => Nat.le_sub_one_of_lt (f i).isLt)
  exact h

/-- The thresholds are safe for every weight vector with the same totals exactly when both are `3 f
+ 1` within 128 bits, one is zero, or one is `3 f + 1` and the other saturates all delegates. -/
theorem quorumIntersection_iff_intersecting (weights : DelegateId → Weight) :
    (∀ weights' : DelegateId → Weight,exactVoteTotal weights' = exactVoteTotal weights →
      exactStakeTotal weights' = exactStakeTotal weights → QuorumIntersection weights') ↔
    Intersecting (exactVoteTotal weights) (exactStakeTotal weights) := by
  constructor
  · intro h
    by_contra hbad
    obtain ⟨v,s,hv,hs,hTv,hTs,hno⟩ := violated_of_not_intersecting
      (exactTotal_le fun i => (weights i).voteWeight)
      (exactTotal_le fun i => (weights i).stakeWeight) hbad
    have hvn : (fun i => (weightsOf v s i).voteWeight.toNat) = v := by
      funext i
      exact (BitVec.toNat_ofNat _ _).trans (Nat.mod_eq_of_lt (hv i))
    have hsn : (fun i => (weightsOf v s i).stakeWeight.toNat) = s := by
      funext i
      exact (BitVec.toNat_ofNat _ _).trans (Nat.mod_eq_of_lt (hs i))
    have hq := h (weightsOf v s) (by rw [exactVoteTotal,hvn,hTv]; rfl)
      (by rw [exactStakeTotal,hsn,hTs]; rfl)
    rw [quorumIntersection_iff_intersects,hvn,hsn] at hq
    exact hno hq
  · intro h weights' hv hs
    rw [quorumIntersection_iff_intersects]
    rw [← hv,← hs] at h
    exact intersects_of_intersecting (fun i => (weights' i).voteWeight.isLt)
      (fun i => (weights' i).stakeWeight.isLt) h

/-- Vote and stake 1, 2 and 2: a total of 5. -/
def totalFive (i : DelegateId) : Weight :=
  if i = 0 then ⟨1,1⟩ else if i = 1 then ⟨2,2⟩ else if i = 2 then ⟨2,2⟩ else ⟨0,0⟩

/-- Quorum is 3 and the tolerated fault 1, but the two sets of weight 3 share weight 1 only. -/
theorem totalFive_not_quorumIntersection :
    (onCurrentEpochSet 0 totalFive).validateQuorum {0,1} ∧
    (onCurrentEpochSet 0 totalFive).validateQuorum {0,2} ∧
    ∑ i ∈ ({0,1} : ParticipationMap) ∩ {0,2},(totalFive i).voteWeight.toNat = 1 ∧
    (onCurrentEpochSet 0 totalFive).voteMaxFault.toNat = 1 ∧
    ¬QuorumIntersection totalFive := by
  refine ⟨by decide,by decide,by decide,by decide,fun h => ?_⟩
  exact absurd (h 0 {0,1} {0,2} (by decide) (by decide)).1 (by decide)

end LogosCore.Quorum
