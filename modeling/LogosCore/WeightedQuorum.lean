import Mathlib

/-!
# Weighted quorums

Sums of machine words over a set of voters, the intersection of two sets of large weight, and
weight vectors with a prescribed total.
-/

namespace WeightedQuorum

section WrappedSums

variable {n w : ℕ}

/-- The sum over the voters of `s`, in index order and modulo `2 ^ w`. -/
def maskedSum (f : Fin n → BitVec w) (s : Finset (Fin n)) : BitVec w :=
  (List.finRange n).foldl (fun acc i => if i ∈ s then acc + f i else acc) 0

variable (f : Fin n → BitVec w)

theorem maskedSum_eq_sum (s : Finset (Fin n)) : maskedSum f s = ∑ i ∈ s,f i := by
  have hfold : ∀ (l : List (Fin n)) (acc : BitVec w),
      l.foldl (fun acc i => if i ∈ s then acc + f i else acc) acc =
        acc + (l.map fun i => if i ∈ s then f i else 0).sum := by
    intro l
    induction l with
    | nil => simp
    | cons i l ih =>
      intro acc
      simp only [List.foldl_cons,List.map_cons,List.sum_cons,ih]
      split_ifs <;> simp [add_assoc]
  rw [maskedSum,hfold,← Fin.sum_univ_def,Finset.sum_ite_mem,Finset.univ_inter]
  exact zero_add _

theorem toNat_sum {ι : Type} (f : ι → BitVec w) (s : Finset ι) :
    (∑ i ∈ s,f i).toNat = (∑ i ∈ s,(f i).toNat) % 2 ^ w := by
  classical
  induction s using Finset.induction_on with
  | empty => simp
  | insert i s hi ih =>
    rw [Finset.sum_insert hi,Finset.sum_insert hi,BitVec.toNat_add,ih]
    simp

theorem maskedSum_toNat (s : Finset (Fin n)) :
    (maskedSum f s).toNat = (∑ i ∈ s,(f i).toNat) % 2 ^ w := by
  rw [maskedSum_eq_sum,toNat_sum]

@[simp] theorem maskedSum_empty : maskedSum f ∅ = 0 := by
  simp [maskedSum_eq_sum]

theorem maskedSum_insert {i : Fin n} {s : Finset (Fin n)} (h : i ∉ s) :
    maskedSum f (insert i s) = maskedSum f s + f i := by
  rw [maskedSum_eq_sum,maskedSum_eq_sum,Finset.sum_insert h,add_comm]

end WrappedSums

section Intersection

variable {α : Type} [Fintype α] [DecidableEq α]

/-- Two sets of weight at least `q` share more than `f` when `2 q` exceeds the total by `f`. -/
theorem lt_sum_inter {w : α → ℕ} {A B : Finset α} {q f : ℕ} (hA : q ≤ ∑ a ∈ A,w a)
    (hB : q ≤ ∑ b ∈ B,w b) (hT : ∑ a,w a + f < 2 * q) : f < ∑ x ∈ A ∩ B,w x := by
  have hunion : ∑ x ∈ A ∪ B,w x ≤ ∑ a,w a := Finset.sum_le_sum_of_subset (Finset.subset_univ _)
  have hsum : ∑ x ∈ A ∪ B,w x + ∑ x ∈ A ∩ B,w x = ∑ a ∈ A,w a + ∑ b ∈ B,w b :=
    Finset.sum_union_inter
  omega

end Intersection

section Vectors

/-- Any total up to `n * cap` is the sum of `n` weights of at most `cap`. -/
theorem exists_weights (n cap T : ℕ) (hT : T ≤ n * cap) :
    ∃ w : Fin n → ℕ,(∀ i,w i ≤ cap) ∧ ∑ i,w i = T := by
  induction n generalizing T with
  | zero => exact ⟨fun i => i.elim0,fun i => i.elim0,by simp; omega⟩
  | succ n ih =>
    obtain ⟨w,hw,hsum⟩ := ih (T - min T cap) (by rw [Nat.succ_mul] at hT; omega)
    refine ⟨Fin.cons (min T cap) w,Fin.cases (by simp) (by simpa using hw),?_⟩
    rw [Fin.sum_univ_succ]
    simp only [Fin.cons_zero,Fin.cons_succ,hsum]
    omega

/-- The same with the weights of the first three voters given. -/
theorem exists_weights_three {n cap T a b c : ℕ} (ha : a ≤ cap) (hb : b ≤ cap) (hc : c ≤ cap)
    (hlow : a + b + c ≤ T) (hhigh : T ≤ a + b + c + n * cap) :
    ∃ w : Fin (n + 3) → ℕ,(∀ i,w i ≤ cap) ∧ ∑ i,w i = T ∧ w 0 = a ∧ w 1 = b ∧ w 2 = c := by
  obtain ⟨w,hw,hsum⟩ := exists_weights n cap (T - (a + b + c)) (by omega)
  refine ⟨Fin.cons a (Fin.cons b (Fin.cons c w)),?_,?_,rfl,rfl,rfl⟩
  · refine Fin.cases (by simpa) (Fin.cases (by simpa) (Fin.cases (by simpa) ?_))
    simpa using hw
  · simp only [Fin.sum_univ_succ,Fin.cons_zero,Fin.cons_succ,hsum]
    omega

end Vectors

end WeightedQuorum
