import LogosCore.Frames

/-! # Shares of voting power

The voting power that representatives have for the next epoch is a sum of shares: each account
contributes its stake to the target of the stake and its available balance to its
representative. An update of voting power adds a share or takes one away. -/
namespace LogosCore.Ledger

variable {H : Type} [DecidableEq H] [Zero H]

open Option Program VotingPowerManager

def VotingPowerSnapshot.get (p : VotingPowerSnapshot) : StakeType → Amount
  | .lockedProxy => p.lockedProxied
  | .unlockedProxy => p.unlockedProxied
  | .selfStake => p.selfStake

@[simp] theorem VotingPowerSnapshot.get_zero (ty : StakeType) : VotingPowerSnapshot.zero.get ty = 0 := by
  cases ty <;> rfl

def OpType.signed (op : OpType) (d : Amount) : ℤ :=
  match op with
  | .add => d.toNat
  | .subtract => -d.toNat

@[simp] theorem OpType.signed_add (d : Amount) : OpType.add.signed d = d.toNat := rfl

@[simp] theorem OpType.signed_subtract (d : Amount) : OpType.subtract.signed d = -d.toNat := rfl

theorem OpType.signed_of_apply {op : OpType} {data diff x : Amount}
    (h : op.apply data diff = some x) : (x.toNat : ℤ) = data.toNat + op.signed diff := by
  unfold OpType.apply at h
  unfold signed
  split at h
  · next hzero =>
    cases h
    rw [hzero]
    cases op <;> simp
  · cases op with
    | add =>
      dsimp only at h ⊢
      split at h
      · cases h
      · cases h
        bv_omega
    | subtract =>
      dsimp only at h ⊢
      split at h
      · cases h
      · cases h
        bv_omega

theorem OpType.apply_ne_none {op : OpType} {data diff : Amount}
    (hlow : 0 ≤ data.toNat + op.signed diff) (hhigh : data.toNat + op.signed diff < 2 ^ 128) :
    op.apply data diff ≠ none := by
  unfold signed at hlow hhigh
  unfold OpType.apply
  split
  · exact some_ne_none _
  · cases op with
    | add =>
      rw [if_neg (by bv_omega)]
      exact some_ne_none _
    | subtract =>
      dsimp only at hlow hhigh ⊢
      rw [if_neg (by bv_omega)]
      exact some_ne_none _

namespace VotingPowerSnapshot

variable {p p' : VotingPowerSnapshot} {ty : StakeType} {op : OpType} {d : Amount}

theorem get_of_modify (h : p.modify ty op d = some p') (ty' : StakeType) :
    ((p'.get ty').toNat : ℤ) = (p.get ty').toNat + if ty' = ty then op.signed d else 0 := by
  cases ty <;>
  · obtain ⟨x,hx,rfl⟩ := map_eq_some_iff.mp h
    have hsigned := OpType.signed_of_apply hx
    cases ty' <;> simp [get,hsigned]

theorem modify_ne_none (hlow : 0 ≤ (p.get ty).toNat + op.signed d)
    (hhigh : (p.get ty).toNat + op.signed d < 2 ^ 128) : p.modify ty op d ≠ none := by
  unfold modify
  cases ty <;>
  · simp only [ne_eq,map_eq_none_iff]
    exact OpType.apply_ne_none hlow hhigh

end VotingPowerSnapshot

/-- What is contributed to each kind of stake of each representative. -/
abbrev Shares (H : Type) := H → StakeType → ℤ

def share (rep : H) (ty : StakeType) (n : ℤ) : Shares H := Pi.single rep (Pi.single ty n)

theorem share_apply (rep : H) (ty : StakeType) (n : ℤ) (r : H) (ty' : StakeType) :
    share rep ty n r ty' = if r = rep ∧ ty' = ty then n else 0 := by
  unfold share
  by_cases hr : r = rep
  · subst hr
    rw [Pi.single_eq_same,Pi.single_apply]
    simp only [true_and]
  · simp [hr]

@[simp] theorem share_zero (rep : H) (ty : StakeType) : share rep ty 0 = 0 := by
  simp [share]

theorem share_add (rep : H) (ty : StakeType) (m n : ℤ) :
    share rep ty (m + n) = share rep ty m + share rep ty n := by
  simp [share,Pi.single_add]

theorem share_neg (rep : H) (ty : StakeType) (n : ℤ) : share rep ty (-n) = -share rep ty n := by
  simp [share,Pi.single_neg]

theorem share_nonneg {rep : H} {ty : StakeType} {n : ℤ} (hn : 0 ≤ n) (r : H) (ty' : StakeType) :
    0 ≤ share rep ty n r ty' := by
  rw [share_apply]
  split
  · exact hn
  · exact Int.le_refl 0

namespace GovernanceStore

/-- The voting power of a representative for the next epoch; without a record it has none. -/
def nextPower (g : GovernanceStore H) (rep : H) : VotingPowerSnapshot :=
  ((g.votingPower.lookup rep).map VotingPowerInfo.next).getD .zero

def power (g : GovernanceStore H) : Shares H := fun rep ty => ((g.nextPower rep).get ty).toNat

variable {g g' : GovernanceStore H} {rep : H}

theorem power_of_lookup {info : VotingPowerInfo} (h : g.votingPower.lookup rep = some info)
    (ty : StakeType) : g.power rep ty = (info.next.get ty).toNat := by
  unfold power nextPower
  rw [h,map_some,getD_some]

theorem power_of_absent (h : g.votingPower.lookup rep = none) (ty : StakeType) :
    g.power rep ty = 0 := by
  unfold power nextPower
  rw [h]
  simp

/-- The last vote of a representative is an election vote that is stored. -/
def TipStored (g : GovernanceStore H) (rep : H) : Prop :=
  ∀ info,g.reps.lookup rep = some info → info.electionVoteTip = 0 ∨
    ∃ gov votes,(g.requests.lookup info.electionVoteTip).map Request.body =
      some (.electionVote gov votes)

/-- The record of a representative is replaced, or pruned if it may be. -/
structure PowerStored (rep : H) (info : VotingPowerInfo) (g g' : GovernanceStore H) : Prop where
  only : g.OnlyPower g'
  lookup : ∀ r,g'.votingPower.lookup r = if r = rep then
    (if canPrune g rep info then none else some info) else g.votingPower.lookup r

theorem PowerStored.power {info : VotingPowerInfo} (h : g.PowerStored rep info g') (r : H)
    (ty : StakeType) :
    g'.power r ty = if r = rep then ((info.next.get ty).toNat : ℤ) else g.power r ty := by
  have hlookup := h.lookup r
  by_cases hr : r = rep
  · rw [if_pos hr] at hlookup ⊢
    by_cases hprune : canPrune g rep info
    · rw [if_pos hprune] at hlookup
      have hzero : info.next = .zero := by
        unfold canPrune at hprune
        simp only [Bool.and_eq_true,decide_eq_true_eq] at hprune
        exact hprune.1
      rw [power_of_absent hlookup,hzero]
      simp
    · rw [if_neg hprune] at hlookup
      exact power_of_lookup hlookup ty
  · rw [if_neg hr] at hlookup ⊢
    unfold GovernanceStore.power nextPower
    rw [hlookup]

theorem OnlyPower.reps (h : g.OnlyPower g') : g'.reps = g.reps := by
  rw [h]

theorem OnlyPower.requests (h : g.OnlyPower g') : g'.requests = g.requests := by
  rw [h]

theorem OnlyPower.stakes (h : g.OnlyPower g') : g'.stakes = g.stakes := by
  rw [h]

end GovernanceStore

/-- A record that lags behind is moved forward; one that is ahead has its current power updated. -/
structure VotingPowerInfo.Modified (ty : StakeType) (op : OpType) (epoch : Epoch) (d : Amount)
    (info info' : VotingPowerInfo) : Prop where
  next : info.next.modify ty op d = some info'.next
  epochModified : info'.epochModified =
    if info.epochModified < epoch then epoch else info.epochModified
  current : if epoch < info.epochModified then info.current.modify ty op d = some info'.current
    else info'.current = if info.epochModified < epoch then info.next else info.current

namespace VotingPowerManager

variable {E : Halt → Prop} {g : GovernanceStore H} {rep : H} {info : VotingPowerInfo}
  {ty : StakeType} {op : OpType} {epoch : Epoch} {d : Amount}

theorem wp_handleFallback (htip : g.TipStored rep ∨ E .votingPower)
    {Q : Unit → GovernanceStore H → Prop}
    (hQ : ∀ fallback,Q () { g with votingPowerFallback := fallback }) :
    (handleFallback info rep epoch).wp E Q g := by
  unfold handleFallback
  simp only [wp_bind,wp_get]
  cases hrep : g.reps.lookup rep with
  | none => exact hQ _
  | some repInfo =>
    refine wp_ite (fun _ => wp_bind.mpr (wp_pure.mpr (wp_ite (fun _ => hQ _) fun _ => hQ _)))
      fun hvoted => ?_
    split
    · exact wp_bind.mpr (wp_pure.mpr (wp_ite (fun _ => hQ _) fun _ => hQ _))
    · next hother =>
      refine wp_bind.mpr (wp_halt.mpr (htip.resolve_left fun htip => ?_))
      obtain hnone | ⟨gov,votes,hbody⟩ := htip repInfo hrep
      · exact hvoted hnone
      · exact hother gov votes hbody

theorem wp_modify (htip : g.TipStored rep ∨ E .votingPower)
    (hcurrent : epoch < info.epochModified → info.current.modify ty op d = none → E .votingPower)
    (hnext : info.next.modify ty op d = none → E .votingPower)
    {Q : VotingPowerInfo → GovernanceStore H → Prop}
    (hQ : ∀ info' fallback,info.Modified ty op epoch d info' →
      Q info' { g with votingPowerFallback := fallback }) :
    (modify info rep ty op epoch d).wp E Q g := by
  refine wp_bind.mpr (wp_ite (fun hbehind => ?_) fun hnot => ?_)
  · refine wp_bind.mpr (wp_handleFallback htip fun fallback => ?_)
    have hlate : ¬epoch < info.epochModified := BitVec.not_lt.mpr (BitVec.le_of_lt hbehind)
    refine wp_ite (fun hlt => absurd hlt (BitVec.lt_irrefl _)) fun _ => ?_
    refine wp_bind.mpr (wp_pure.mpr (wp_bind.mpr (wp_need hnext fun next hnext' => ?_)))
    exact hQ _ fallback ⟨hnext',(if_pos hbehind).symm,by rw [if_neg hlate,if_pos hbehind]⟩
  · refine wp_ite (fun hahead => ?_) fun hahead => ?_
    · refine wp_bind.mpr (wp_need (hcurrent hahead) fun current hcurrent' => ?_)
      refine wp_bind.mpr (wp_need hnext fun next hnext' => ?_)
      exact hQ _ g.votingPowerFallback ⟨hnext',(if_neg hnot).symm,by rw [if_pos hahead,hcurrent']⟩
    · refine wp_bind.mpr (wp_pure.mpr (wp_bind.mpr (wp_need hnext fun next hnext' => ?_)))
      exact hQ _ g.votingPowerFallback
        ⟨hnext',(if_neg hnot).symm,by rw [if_neg hahead,if_neg hnot]⟩

theorem wp_storeOrPrune
    (hrecord : canPrune g rep info = true → rep ∉ g.votingPower → E .votingPower) :
    (storeOrPrune rep info).wp E (fun _ => g.PowerStored rep info) g := by
  unfold storeOrPrune
  rw [wp_bind,wp_get]
  refine wp_ite (fun hprune => wp_ite (fun _ => ?_) (hrecord hprune)) fun hkeep => ?_
  · refine ⟨rfl,fun r => ?_⟩
    rw [if_pos hprune]
    exact Table.lookup_erase_ite ..
  · refine ⟨rfl,fun r => ?_⟩
    rw [if_neg hkeep]
    exact Table.lookup_insert_ite ..

end VotingPowerManager

end LogosCore.Ledger
