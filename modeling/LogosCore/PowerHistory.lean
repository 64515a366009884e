import LogosCore.EarlyUpdates
import LogosCore.PowerShares

/-! # The history of a record of voting power

Changes of voting power may arrive in another order than that of their epochs. What is stored in
the end depends only on which changes were made. -/
namespace LogosCore.Ledger

variable {H : Type} [DecidableEq H] [Zero H]

open Program VotingPowerManager

structure PowerChange where
  stakeType : StakeType
  op : OpType
  amount : Amount
  epoch : Epoch

def totalChange (cs : List PowerChange) (ty : StakeType) : ℤ :=
  (cs.map fun c => if ty = c.stakeType then c.op.signed c.amount else 0).sum

/-- Next is the sum of all changes, and current that of the changes before the last epoch. -/
structure VotingPowerInfo.SumsUp (cs : List PowerChange) (info : VotingPowerInfo) : Prop where
  reached : ∀ c ∈ cs,c.epoch ≤ info.epochModified
  next : ∀ ty,((info.next.get ty).toNat : ℤ) = totalChange cs ty
  current : ∀ ty,((info.current.get ty).toNat : ℤ) =
    totalChange (cs.filter fun c => c.epoch < info.epochModified) ty

def VotingPowerInfo.Latest (cs : List PowerChange) (info : VotingPowerInfo) : Prop :=
  ∃ c ∈ cs,c.epoch = info.epochModified

variable {cs cs' : List PowerChange} {c : PowerChange} {info info' : VotingPowerInfo}

@[simp] theorem totalChange_append (cs cs' : List PowerChange) (ty : StakeType) :
    totalChange (cs ++ cs') ty = totalChange cs ty + totalChange cs' ty := by
  simp [totalChange]

theorem totalChange_perm (h : cs.Perm cs') : totalChange cs = totalChange cs' :=
  funext fun _ => (h.map _).sum_eq

namespace VotingPowerInfo

theorem SumsUp.start (epoch : Epoch) : SumsUp [] ⟨.zero,.zero,epoch⟩ :=
  ⟨by simp,fun ty => by simp [totalChange],fun ty => by simp [totalChange]⟩

theorem SumsUp.modified (h : info.SumsUp cs)
    (hm : info.Modified c.stakeType c.op c.epoch c.amount info') : info'.SumsUp (cs ++ [c]) := by
  have hepoch := hm.epochModified
  refine ⟨fun d hd => ?_,fun ty => ?_,fun ty => ?_⟩
  · have hreached := h.reached d
    simp only [List.mem_append,List.mem_singleton] at hd
    rw [hepoch]
    rcases hd with hd | rfl
    · have hreached := hreached hd
      split <;> bv_omega
    · split <;> bv_omega
  · rw [VotingPowerSnapshot.get_of_modify hm.next,h.next,totalChange_append]
    simp [totalChange]
  · have hcurrent := hm.current
    rw [List.filter_append,totalChange_append,hepoch]
    by_cases hahead : c.epoch < info.epochModified
    · -- a late change counts for both
      have hlate : ¬info.epochModified < c.epoch := by bv_omega
      rw [if_pos hahead] at hcurrent
      rw [if_neg hlate,VotingPowerSnapshot.get_of_modify hcurrent,h.current]
      simp [totalChange,hahead]
    · rw [if_neg hahead] at hcurrent
      rw [hcurrent]
      split
      · -- all that was next becomes current
        next hbehind =>
        have hall : cs.filter (fun d => d.epoch < c.epoch) = cs :=
          List.filter_eq_self.mpr fun d hd => by
            have := h.reached d hd
            simp only [decide_eq_true_eq]
            bv_omega
        rw [hall,h.next]
        simp [totalChange]
      · rw [h.current]
        simp [totalChange,hahead]

theorem Latest.modified (h : info.epochModified = c.epoch ∨ info.Latest cs)
    (hm : info.Modified c.stakeType c.op c.epoch c.amount info') : info'.Latest (cs ++ [c]) := by
  unfold Latest
  rw [hm.epochModified]
  split
  · exact ⟨c,by simp,rfl⟩
  · rcases h with h | ⟨d,hd,h⟩
    · exact ⟨c,by simp,h.symm⟩
    · exact ⟨d,by simp [hd],h⟩

theorem ext_get {p p' : VotingPowerSnapshot}
    (h : ∀ ty,((p.get ty).toNat : ℤ) = (p'.get ty).toNat) : p = p' := by
  have hself := h .selfStake
  have hlocked := h .lockedProxy
  have hunlocked := h .unlockedProxy
  simp only [VotingPowerSnapshot.get,Nat.cast_inj,BitVec.toNat_inj] at hself hlocked hunlocked
  cases p
  simp_all

/-- The order of the changes does not matter. -/
theorem SumsUp.unique (h : info.SumsUp cs) (hl : info.Latest cs) (h' : info'.SumsUp cs')
    (hl' : info'.Latest cs') (hperm : cs.Perm cs') : info = info' := by
  have hepoch : info.epochModified = info'.epochModified := by
    obtain ⟨c,hc,hce⟩ := hl
    obtain ⟨d,hd,hde⟩ := hl'
    have hle := h'.reached c (hperm.mem_iff.mp hc)
    have hle' := h.reached d (hperm.mem_iff.mpr hd)
    bv_omega
  have hnext : info.next = info'.next :=
    ext_get fun ty => by rw [h.next,h'.next,totalChange_perm hperm]
  have hcurrent : info.current = info'.current := ext_get fun ty => by
    rw [h.current,h'.current,hepoch,totalChange_perm (hperm.filter _)]
  cases info
  simp_all

end VotingPowerInfo

def GovernanceStore.Recorded (rep : H) (cs : List PowerChange) (g : GovernanceStore H) : Prop :=
  ∃ info,g.votingPower.lookup rep = some info ∧ info.SumsUp cs ∧ info.Latest cs

/-- No record is left only if there is nothing in it. -/
def GovernanceStore.Retains (g : GovernanceStore H) (rep : H) (cs : List PowerChange) : Prop :=
  rep ∈ g.reps ∨ totalChange cs ≠ 0

variable {g g' : GovernanceStore H} {rep : H}

theorem recorded_modified (h : info.SumsUp cs)
    (hl : info.epochModified = c.epoch ∨ info.Latest cs) :
    (modify info rep c.stakeType c.op c.epoch c.amount).wp (fun _ => True) (fun info' =>
      (storeOrPrune rep info').wp (fun _ => True) fun _ g' => g'.reps = g.reps ∧
        (g.Retains rep (cs ++ [c]) → g'.Recorded rep (cs ++ [c]))) g := by
  refine wp_modify (.inr trivial) (fun _ _ => trivial) (fun _ => trivial)
    fun info' fallback hm => (wp_storeOrPrune fun _ _ => trivial).imp fun _ g' hstored => ?_
  have hsums := h.modified hm
  refine ⟨hstored.only.reps,fun hkeeps => ⟨info',?_,hsums,.modified hl hm⟩⟩
  have hkept : canPrune { g with votingPowerFallback := fallback } rep info' = false := by
    unfold canPrune
    rcases hkeeps with hrep | htotal
    · simp [hrep]
    · have hnext : info'.next ≠ .zero := fun hzero => htotal (funext fun ty => by
        rw [← hsums.next,hzero]
        simp)
      simp [hnext]
  rw [hstored.lookup,if_pos rfl,hkept]
  rfl

/-- The history of a record begins with a change of self stake, which creates it. -/
def GovernanceStore.Traces (rep : H) (cs : List PowerChange) (g : GovernanceStore H) : Prop :=
  cs = [] ∧ g.votingPower.lookup rep = none ∨ g.Recorded rep cs

theorem recorded_update (h : g.Traces rep cs) (c : PowerChange) :
    (update c.stakeType c.op rep c.amount c.epoch).wp (fun _ => True)
      (fun _ g' => g'.reps = g.reps ∧ (g.Retains rep (cs ++ [c]) → g'.Recorded rep (cs ++ [c]))) g := by
  obtain ⟨ty,op,d,epoch⟩ := c
  by_cases hadd : ty = .selfStake ∧ op = .add
  · obtain ⟨rfl,rfl⟩ := hadd
    simp only [update,addSelfStake,wp_bind,wp_get]
    rcases h with ⟨rfl,hnone⟩ | ⟨info,hinfo,hsums,hlatest⟩
    · rw [hnone]
      exact recorded_modified (c := ⟨_,_,d,epoch⟩) (.start epoch) (.inl rfl)
    · rw [hinfo]
      exact recorded_modified (c := ⟨_,_,d,epoch⟩) hsums (.inr hlatest)
  · rw [update_eq_modifyStored hadd]
    rcases h with ⟨-,hnone⟩ | ⟨info,hinfo,hsums,hlatest⟩
    · simp only [modifyStored,wp_bind,wp_get,hnone]
      exact trivial
    · simp only [modifyStored,wp_bind,wp_get,hinfo]
      exact recorded_modified (c := ⟨ty,op,d,epoch⟩) hsums (.inr hlatest)

def applyChanges (cs : List PowerChange) (rep : H) : Gov H Unit :=
  cs.forM fun c => update c.stakeType c.op rep c.amount c.epoch

theorem traces_applyChanges {rest : List PowerChange} (h : g.Traces rep cs)
    (hkeeps : ∀ made,made <+: cs ++ rest → made ≠ [] → g.Retains rep made) :
    (applyChanges rest rep).wp (fun _ => True) (fun _ => (·.Traces rep (cs ++ rest))) g := by
  induction rest generalizing cs g with
  | nil =>
    rw [List.append_nil]
    exact h
  | cons c rest ih =>
    refine (recorded_update h c).bind fun _ g1 h1 => ?_
    have hmade : cs ++ c::rest = cs ++ [c] ++ rest := by simp
    rw [hmade] at hkeeps ⊢
    have hrecorded := h1.2 (hkeeps (cs ++ [c]) ⟨rest,rfl⟩ (by simp))
    refine ih (.inr hrecorded) fun made hpart hne => ?_
    unfold GovernanceStore.Retains
    rw [h1.1]
    exact hkeeps made hpart hne

/-- Where no change is refused and the record is never pruned, it holds the sums of the changes,
and every order of the changes leads to the same record. -/
theorem applyChanges_closed_form (hnone : g.votingPower.lookup rep = none) (cs : List PowerChange)
    (hkeeps : ∀ made,made <+: cs → made ≠ [] → g.Retains rep made) {g1 : GovernanceStore H}
    (hrun : (applyChanges cs rep).run g = .ok ((),g1)) :
    (cs ≠ [] → g1.Recorded rep cs) ∧
    ∀ cs' g2,cs.Perm cs' → (∀ made,made <+: cs' → made ≠ [] → g.Retains rep made) →
      (applyChanges cs' rep).run g = .ok ((),g2) →
      g1.votingPower.lookup rep = g2.votingPower.lookup rep := by
  have hstart : g.Traces rep [] := .inl ⟨rfl,hnone⟩
  have h1 := (traces_applyChanges hstart hkeeps).run hrun
  refine ⟨fun hne => h1.resolve_left fun hnil => hne hnil.1,fun cs' g2 hperm hkeeps' hrun' => ?_⟩
  have h2 := (traces_applyChanges hstart hkeeps').run hrun'
  rcases h1 with ⟨rfl,hlookup⟩ | ⟨info,hinfo,hsums,hlatest⟩
  · cases hperm.nil_eq
    rw [hlookup,(h2.resolve_right fun ⟨_,_,_,_,hc,_⟩ => List.not_mem_nil hc).2]
  · obtain ⟨c,hc,-⟩ := id hlatest
    obtain ⟨info',hinfo',hsums',hlatest'⟩ := h2.resolve_left fun hnil =>
      List.ne_nil_of_mem (hperm.mem_iff.mp hc) hnil.1
    rw [hinfo,hinfo',hsums.unique hlatest hsums' hlatest' hperm]

/-- The last change belongs to an earlier epoch than the one before. -/
def lateChanges : List PowerChange :=
  [⟨.selfStake,.add,100,8⟩,⟨.lockedProxy,.add,50,12⟩,⟨.selfStake,.subtract,30,10⟩]

def representedStore : GovernanceStore ℕ :=
  { GovernanceStore.empty with reps := AList.insert 1 ⟨0,0,0,0⟩ ∅ }

theorem applyChanges_closed_form_late :
    ∃ g1,(applyChanges lateChanges 1).run representedStore = .ok ((),g1) ∧
      g1.Recorded 1 lateChanges := by
  have hkeeps : ∀ made,made <+: lateChanges → made ≠ [] → representedStore.Retains 1 made :=
    fun _ _ _ => .inl (by decide)
  obtain ⟨g1,hrun⟩ : ∃ g1,(applyChanges lateChanges 1).run representedStore = .ok ((),g1) := ⟨_,rfl⟩
  exact ⟨g1,hrun,(applyChanges_closed_form rfl lateChanges hkeeps hrun).1 (by simp [lateChanges])⟩

end LogosCore.Ledger
