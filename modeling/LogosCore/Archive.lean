import LogosCore.Messages
import LogosCore.Store
import LogosCore.Chains

/-! # The chains of blocks

Request, micro and epoch blocks as the block store keeps them, each with the hash of the block
before it and of the block after it, and the tips at which their chains end. -/
namespace LogosCore.Archive

open Option

open Ledger (ProcessResult Validation Amount)

structure Tip (H : Type) where
  epoch : BitVec 32
  sqn : BitVec 32
  digest : H
deriving DecidableEq,Repr

instance {H : Type} [Zero H] : Zero (Tip H) := ⟨⟨0,0,0⟩⟩

/-- The number of the block in its epoch, counted from one; zero in every other epoch. -/
def Tip.nthBlockInEpoch {H : Type} [DecidableEq H] [Zero H] (t : Tip H) (expected : BitVec 32) :
    BitVec 32 :=
  if expected = t.epoch ∧ t.digest ≠ 0 then t.sqn + 1 else 0

abbrev numDelegates : ℕ := 32

def genesisEpoch : BitVec 32 := 2

/-- A post-committed block in the store; its hash does not cover the link to the next block. -/
structure ApprovedBlock (H σ β : Type) extends ConsensusBlock H σ β where
  next : H
deriving DecidableEq

structure MicroBlockBody (H : Type) where
  lastMicroBlock : BitVec 8
  numberBatchBlocks : BitVec 32
  tips : Fin numDelegates → Tip H
deriving DecidableEq

structure EpochBody (H : Type) where
  microBlockTip : Tip H
  transactionFeePool : Amount
  totalSupply : Amount
  delegates : List (Ledger.Delegate H)
  totalRBs : BitVec 64
  isExtension : Bool
deriving DecidableEq

abbrev RequestBlock (H σ : Type) := ApprovedBlock H σ (List H)

abbrev MicroBlock (H σ : Type) := ApprovedBlock H σ (MicroBlockBody H)

abbrev EpochBlock (H σ : Type) := ApprovedBlock H σ (EpochBody H)

/-- What blake2b reads of a delegate: everything but the mark of a starting term. -/
structure DelegateImage (H : Type) where
  account : H
  keys : H
  rawVote : Amount
  rawStake : Amount
  vote : Amount
  stake : Amount
deriving DecidableEq

def delegateImage {H : Type} (d : Ledger.Delegate H) : DelegateImage H :=
  ⟨d.account,d.keys,d.rawVote,d.rawStake,d.vote,d.stake⟩

/-- What blake2b reads of the contents of an epoch block. -/
structure EpochImage (H : Type) where
  microBlockTip : Tip H
  transactionFeePool : Amount
  totalSupply : Amount
  delegates : List (DelegateImage H)
  totalRBs : BitVec 64
deriving DecidableEq

def EpochBody.image {H : Type} (b : EpochBody H) : EpochImage H :=
  ⟨b.microBlockTip,b.transactionFeePool,b.totalSupply,b.delegates.map delegateImage,b.totalRBs⟩

/-- blake2b on the version, the header and the contents of each kind of block. -/
structure Digests (H : Type) where
  request : BitVec 8 → HeaderImage H → List H → H
  microBlock : BitVec 8 → HeaderImage H → MicroBlockBody H → H
  epoch : BitVec 8 → HeaderImage H → EpochImage H → H

section Hash
variable {H σ : Type} [Zero H] (D : Digests H)

def Digests.requestHash (b : RequestBlock H σ) : H := D.request b.version (b.image false) b.body

def Digests.microBlockHash (b : MicroBlock H σ) : H :=
  D.microBlock b.version (b.image true) b.body

def Digests.epochHash (b : EpochBlock H σ) : H := D.epoch b.version (b.image true) b.body.image

def tipOf {β : Type} (b : ApprovedBlock H σ β) (hash : H) : Tip H :=
  ⟨b.epochNumber,b.sequence,hash⟩

/-- Neither link of the first request block of an epoch is covered by its hash. -/
theorem Digests.requestHash_first {b : RequestBlock H σ} (hfirst : b.sequence = 0)
    (previous next : H) :
    D.requestHash { b with previous := previous,next := next } = D.requestHash b := by
  simp [requestHash,PrePrepareCommon.image,hfirst]

end Hash

def Digests.sample : Digests ℕ where
  request _ header _ := 1 + Nat.pair header.previous (Nat.pair (header.primaryDelegate.getD 0).toNat
    (Nat.pair header.epochNumber.toNat header.sequence.toNat))
  microBlock _ header body := 1 + Nat.pair header.previous (Nat.pair header.epochNumber.toNat
    (Nat.pair header.sequence.toNat (Nat.pair body.lastMicroBlock.toNat body.numberBatchBlocks.toNat)))
  epoch _ header _ := 1 + Nat.pair header.previous header.epochNumber.toNat

/-- A block of version zero with a header of which only the place matters, for examples. -/
def sampleBlock {β : Type} (d : BitVec 8) (epoch sequence : BitVec 32) (previous : ℕ) (body : β) :
    ApprovedBlock ℕ Unit β :=
  ⟨⟨⟨d,epoch,epoch,sequence,0,previous,()⟩,0,body⟩,0⟩

/-- The three chains of the block store, with tips of request blocks by delegate and epoch. -/
structure BlockStore (H σ : Type) where
  requestBlocks : Table H (RequestBlock H σ)
  requestTips : Table (BitVec 8 × BitVec 32) (Tip H)
  microBlocks : Table H (MicroBlock H σ)
  microBlockTip : Option (Tip H)
  epochs : Table H (EpochBlock H σ)
  epochTip : Option (Tip H)

def BlockStore.empty {H σ : Type} : BlockStore H σ := ⟨∅,∅,∅,none,∅,none⟩

/-- How far earlier calls got with a block, and which parts they found wanting. -/
structure ValidationStatus where
  requests : List ℕ
  progress : ℕ
deriving DecidableEq,Repr

/-- A stage is made unless an earlier call got past it. -/
def Made (status : Option ValidationStatus) (stage : ℕ) : Prop := ∀ st ∈ status,st.progress < stage

instance (status : Option ValidationStatus) (stage : ℕ) : Decidable (Made status stage) :=
  Option.decidableForallMem ..

/-- A part of the block is looked at when its stage is new or it was found wanting before. -/
def Examined (status : Option ValidationStatus) (stage i : ℕ) : Prop :=
  Made status stage ∨ ∃ st ∈ status,i ∈ st.requests

instance (status : Option ValidationStatus) (stage i : ℕ) : Decidable (Examined status stage i) :=
  inferInstanceAs (Decidable (_ ∨ _))

def stage (status : Option ValidationStatus) (n : ℕ) (check : Validation Unit) : Validation Unit :=
  if Made status n then check else pure ()

theorem accepts_stage {status : Option ValidationStatus} {n : ℕ} {check : Validation Unit} :
    (stage status n check).Accepts () ↔ (Made status n → check.Accepts ()) := by
  unfold stage
  split
  · next h => simp [h]
  · next h => simp [h]

/-- The clocks of node and block may differ by the given milliseconds; zero means no check. -/
def validateTimestamp (clockDrift now timestamp : BitVec 64) : Validation Unit :=
  Check.require (0 < clockDrift →
    ¬clockDrift < (if timestamp < now then now - timestamp else timestamp - now)) .clockDrift

section Links
variable {H σ β : Type} [DecidableEq H]

def updateNext (t : Table H (ApprovedBlock H σ β)) (hash next : H) :
    Option (Table H (ApprovedBlock H σ β)) :=
  (t.lookup hash).map fun b => t.insert hash { b with next := next }

def updatePrev (t : Table H (ApprovedBlock H σ β)) (hash previous : H) :
    Option (Table H (ApprovedBlock H σ β)) :=
  (t.lookup hash).map fun b => t.insert hash { b with previous := previous }

variable {t t' : Table H (ApprovedBlock H σ β)} {hash next previous : H}

theorem lookup_updateNext (h : updateNext t hash next = some t') (k : H) :
    t'.lookup k = if k = hash then (t.lookup k).map ({ · with next := next })
      else t.lookup k := by
  obtain ⟨b,hb,rfl⟩ := map_eq_some_iff.mp h
  rw [Table.lookup_insert_ite]
  split
  · next hk => rw [hk,hb,map_some]
  · rfl

theorem lookup_updatePrev (h : updatePrev t hash previous = some t') (k : H) :
    t'.lookup k = if k = hash then (t.lookup k).map ({ · with previous := previous })
      else t.lookup k := by
  obtain ⟨b,hb,rfl⟩ := map_eq_some_iff.mp h
  rw [Table.lookup_insert_ite]
  split
  · next hk => rw [hk,hb,map_some]
  · rfl

theorem updateNext_eq_some_iff : (∃ t',updateNext t hash next = some t') ↔ hash ∈ t := by
  simp [updateNext,← AList.lookup_isSome,isSome_iff_exists]

theorem updatePrev_eq_some_iff : (∃ t',updatePrev t hash previous = some t') ↔ hash ∈ t := by
  simp [updatePrev,← AList.lookup_isSome,isSome_iff_exists]

end Links

end LogosCore.Archive
