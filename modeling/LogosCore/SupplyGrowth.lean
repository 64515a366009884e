import LogosCore.EpochValidation

/-! # The growth of the total supply

Every epoch block states a total supply that is computed from the one of the block before it, and
what was added is the reward of the epoch. -/
namespace LogosCore.Archive

open Option

open Ledger (Amount Epoch GovernanceStore updateGlobalRewards)

variable {H σ : Type} [DecidableEq H] [Zero H] {V : Voting H}

/-- The whole part of the supply times the rate of inflation. -/
def inflated (supply : Amount) : ℕ := supply.toNat * 1000035 / 1000000

/-- A supply that is large enough to grow by a unit and whose growth has room. -/
def Grows (supply : Amount) : Prop :=
  supply = 0 ∨ supply.toNat < inflated supply ∧ inflated supply < 2 ^ 128

instance (supply : Amount) : Decidable (Grows supply) :=
  inferInstanceAs (Decidable (_ ∨ _))

theorem toNat_inflate (supply : Amount) : (inflate supply).toNat =
    if inflated supply ≤ supply.toNat then 0 else inflated supply % 2 ^ 128 := by
  have hinflate : inflate supply = if inflated supply ≤ supply.toNat then 0
      else BitVec.ofNat 128 (inflated supply) := rfl
  rw [hinflate]
  split
  · rfl
  · exact BitVec.toNat_ofNat ..

/-- The product does not fit if it grows beyond the range, and what is left of it is smaller. -/
theorem le_inflate_iff (supply : Amount) : supply ≤ inflate supply ↔ Grows supply := by
  have hmul : inflated supply < 2 ^ 128 + supply.toNat := by
    simp only [inflated]
    omega
  have hzero : supply = 0 ↔ supply.toNat = 0 := BitVec.toNat_inj.symm
  simp only [BitVec.le_def,toNat_inflate,Grows,hzero]
  split
  · omega
  · by_cases hfit : inflated supply < 2 ^ 128
    · omega
    · have hmod : inflated supply % 2 ^ 128 = inflated supply - 2 ^ 128 := by omega
      omega

theorem inflate_eq_inflated {supply : Amount} (h : Grows supply)
    (hfit : inflated supply < 2 ^ 128) : (inflate supply).toNat = inflated supply := by
  simp only [toNat_inflate,Nat.mod_eq_of_lt hfit]
  rcases h with hzero | hgrows
  · simp [inflated,hzero]
  · simp [Nat.not_le.mpr hgrows.1]

/-- A node with the first block at its tip builds the second one. -/
def BuiltOn (V : Voting H) (b b' : EpochBlock H σ) : Prop :=
  ∃ (n : Node H σ) (tip : Tip H) (now : BitVec 64) (version : BitVec 8) (sig : σ),
    n.chains.epochTip = some tip ∧ n.chains.epochs.lookup tip.digest = some b ∧
    n.buildEpoch V now version sig = some b'

/-- The supply of a block after that of the block before it, and the reward of its epoch. -/
structure SupplyExact (b b' : EpochBlock H σ) : Prop where
  mono : b.body.totalSupply ≤ b'.body.totalSupply
  floor : inflated b.body.totalSupply < 2 ^ 128 →
    b'.body.totalSupply.toNat = inflated b.body.totalSupply
  reward : ∀ (g : GovernanceStore H) (info : Ledger.GlobalRewardsInfo),
    g.globalRewards.lookup b'.epochNumber = some info →
    g.epochGet b'.previous = some (ledgerEpoch b) →
    ∃ g' info',(updateGlobalRewards (ledgerEpoch b')).run g = .ok ((),g') ∧
      g'.globalRewards.lookup b'.epochNumber = some info' ∧
      b.body.totalSupply.toNat + info'.totalReward.toNat = b'.body.totalSupply.toNat ∧
      info'.remainingReward = .ofNat info'.totalReward.toNat

theorem BuiltOn.totalSupply {b b' : EpochBlock H σ} (h : BuiltOn V b b') :
    b'.body.totalSupply = inflate b.body.totalSupply := by
  obtain ⟨n,tip,now,version,sig,htip,hb,hbuild⟩ := h
  simp only [Node.buildEpoch,htip,bind_eq_bind,bind_some,hb] at hbuild
  obtain ⟨microTip,-,hbuild⟩ := bind_eq_some_iff.mp hbuild
  obtain ⟨last,-,hbuild⟩ := bind_eq_some_iff.mp hbuild
  obtain ⟨next,-,hbuild⟩ := bind_eq_some_iff.mp hbuild
  obtain ⟨number,-,hbuild⟩ := bind_eq_some_iff.mp hbuild
  cases hbuild
  rfl

/-- The reward is the difference of the supplies in 128 bits. -/
theorem run_updateGlobalRewards {g : GovernanceStore H} {b b' : EpochBlock H σ}
    {info : Ledger.GlobalRewardsInfo} (hinfo : g.globalRewards.lookup b'.epochNumber = some info)
    (hprevious : g.epochGet b'.previous = some (ledgerEpoch b)) :
    ∃ g' info',(updateGlobalRewards (ledgerEpoch b')).run g = .ok ((),g') ∧
      g'.globalRewards.lookup b'.epochNumber = some info' ∧
      info'.totalReward = b'.body.totalSupply - b.body.totalSupply ∧
      info'.remainingReward = .ofNat info'.totalReward.toNat := by
  have hinfo' : g.globalRewards.lookup (ledgerEpoch b').epochNumber = some info := hinfo
  have hprevious' : g.epochGet (ledgerEpoch b').previous = some (ledgerEpoch b) := hprevious
  let reward := b'.body.totalSupply - b.body.totalSupply
  let info' := { info with totalReward := reward,remainingReward := .ofNat reward.toNat }
  refine ⟨{ g with globalRewards := g.globalRewards.insert b'.epochNumber info' },info',?_,
    AList.lookup_insert _,rfl,rfl⟩
  simp only [updateGlobalRewards,StateT.run_bind,StateT.run_get,pure_bind,hinfo',hprevious',
    Program.run_need_some]
  rfl

theorem supplyExact_iff {b b' : EpochBlock H σ} (h : BuiltOn V b b') :
    SupplyExact b b' ↔ Grows b.body.totalSupply := by
  rw [← le_inflate_iff,← h.totalSupply]
  constructor
  · exact fun h => h.mono
  · intro hle
    refine ⟨hle,fun hfit => ?_,fun g info hinfo hprevious => ?_⟩
    · rw [h.totalSupply] at hle ⊢
      exact inflate_eq_inflated ((le_inflate_iff _).mp hle) hfit
    · obtain ⟨g',info',hrun,hinfo',hreward,hremaining⟩ := run_updateGlobalRewards hinfo hprevious
      refine ⟨g',info',hrun,hinfo',?_,hremaining⟩
      bv_omega

/-- Neighbours in a chain of one relation are in another iff the first has a property. -/
theorem isChain_iff_dropLast {α : Type} {R S : α → α → Prop} {P : α → Prop}
    (hiff : ∀ a b,R a b → (S a b ↔ P a)) {l : List α} (h : l.IsChain R) :
    l.IsChain S ↔ ∀ a ∈ l.dropLast,P a := by
  induction l with
  | nil => simp
  | cons a l ih =>
    cases l with
    | nil => simp
    | cons b l =>
      simp only [List.isChain_cons_cons] at h
      simp only [List.isChain_cons_cons,List.dropLast_cons_cons,List.forall_mem_cons,
        hiff a b h.1,ih h.2]

/-- The supplies grow as they should exactly as long as each is large enough and has room. -/
theorem supply_exact_iff {chain : List (EpochBlock H σ)} (h : chain.IsChain (BuiltOn V)) :
    chain.IsChain SupplyExact ↔ ∀ b ∈ chain.dropLast,Grows b.body.totalSupply :=
  isChain_iff_dropLast (P := fun b => Grows b.body.totalSupply) (fun _ _ => supplyExact_iff) h

section Sample

def suppliedEpoch (supply : Amount) : EpochBlock ℕ Unit :=
  { thirdEpoch with body := { thirdEpoch.body with totalSupply := supply } }

def suppliedNode (supply : Amount) : Node ℕ Unit :=
  { sampleNode ⟨4,0,7⟩ with
    chains := { (sampleNode ⟨4,0,7⟩).chains with
      epochs := AList.singleton 7 (suppliedEpoch supply)
      epochTip := some ⟨3,0,7⟩ } }

theorem builtOn_supplied {supply : Amount} {b : EpochBlock ℕ Unit}
    (h : (suppliedNode supply).buildEpoch sampleVoting 0 0 () = some b) :
    BuiltOn sampleVoting (suppliedEpoch supply) b :=
  ⟨suppliedNode supply,⟨3,0,7⟩,0,0,(),rfl,rfl,h⟩

theorem supply_exact_million : ∃ b : EpochBlock ℕ Unit,
    [suppliedEpoch 1000000,b].IsChain SupplyExact ∧ b.body.totalSupply = 1000035 := by
  have hbuild : ((suppliedNode 1000000).buildEpoch sampleVoting 0 0 ()).map
      (·.body.totalSupply) = some 1000035 := by
    decide +kernel
  obtain ⟨b,hb,hsupply⟩ := map_eq_some_iff.mp hbuild
  have hchain : [suppliedEpoch 1000000,b].IsChain (BuiltOn sampleVoting) :=
    List.isChain_pair.mpr (builtOn_supplied hb)
  refine ⟨b,(supply_exact_iff hchain).mpr ?_,hsupply⟩
  simp only [List.dropLast_cons_cons,List.dropLast_singleton,List.forall_mem_cons]
  decide

/-- On top of the largest supply a smaller one is built, and on a small one none at all. -/
theorem genesis_supply_shrinks : ∃ b b' : EpochBlock ℕ Unit,
    [suppliedEpoch (.allOnes 128),b].IsChain (BuiltOn sampleVoting) ∧
    b.body.totalSupply < (suppliedEpoch (.allOnes 128)).body.totalSupply ∧
    [suppliedEpoch 28571,b'].IsChain (BuiltOn sampleVoting) ∧ b'.body.totalSupply = 0 := by
  have hbuild : (((suppliedNode (.allOnes 128)).buildEpoch sampleVoting 0 0 ()).map fun b =>
      decide (b.body.totalSupply < BitVec.allOnes 128)) = some true := by
    decide +kernel
  have hsmall : ((suppliedNode 28571).buildEpoch sampleVoting 0 0 ()).map (·.body.totalSupply) =
      some 0 := by
    decide +kernel
  obtain ⟨b,hb,hlt⟩ := map_eq_some_iff.mp hbuild
  obtain ⟨b',hb',hzero⟩ := map_eq_some_iff.mp hsmall
  exact ⟨b,b',List.isChain_pair.mpr (builtOn_supplied hb),of_decide_eq_true hlt,
    List.isChain_pair.mpr (builtOn_supplied hb'),hzero⟩

end Sample
end LogosCore.Archive
