import LogosCore.Quorum

/-!
# Consensus messages

The headers, signatures and hashes that the delegates exchange. Hashes live in an arbitrary type
`H`, signatures in `σ`; blake2b and BLS are parameters.
-/

namespace LogosCore

open Quorum

inductive ConsensusType
  | request | microBlock | epoch
  deriving DecidableEq

structure AggSignature (σ : Type) where
  map : ParticipationMap
  sig : σ
  deriving DecidableEq

/-- `PrePrepareCommon`: the header of every proposed block. -/
structure PrePrepareCommon (H σ : Type) where
  primaryDelegate : BitVec 8
  epochNumber : BitVec 32
  delegatesEpochNumber : BitVec 32
  sequence : BitVec 32
  timestamp : BitVec 64
  previous : H
  preprepareSig : σ
  deriving DecidableEq

/-- What blake2b reads of a header, with zero for `previous` in the first block of an epoch. -/
structure HeaderImage (H : Type) where
  primaryDelegate : Option (BitVec 8)
  epochNumber : BitVec 32
  delegatesEpochNumber : BitVec 32
  sequence : BitVec 32
  timestamp : Option (BitVec 64)
  previous : H
  deriving DecidableEq

def PrePrepareCommon.image {H σ : Type} [Zero H] (b : PrePrepareCommon H σ)
    (isArchiveBlock : Bool) : HeaderImage H where
  primaryDelegate := if isArchiveBlock then none else some b.primaryDelegate
  epochNumber := b.epochNumber
  delegatesEpochNumber := b.delegatesEpochNumber
  sequence := b.sequence
  timestamp := if isArchiveBlock then none else some b.timestamp
  previous := if b.sequence ≠ 0 ∨ isArchiveBlock then b.previous else 0

/-- A block of one of the three chains; `β` is what follows the header. -/
structure ConsensusBlock (H σ β : Type) extends PrePrepareCommon H σ where
  version : BitVec 8
  body : β
  deriving DecidableEq

/-- `PostCommittedBlock`, without its link to the next block. -/
structure PostCommittedBlock (H σ β : Type) extends ConsensusBlock H σ β where
  postPrepareSig : AggSignature σ
  postCommitSig : AggSignature σ
  deriving DecidableEq

/-- blake2b on what the code feeds to it: `γ` is what it reads of a body. -/
structure Hashing (H σ β γ : Type) where
  covered : β → γ
  digest : BitVec 8 → HeaderImage H → γ → H
  postPhaseDigest : H → AggSignature σ → H

variable {H σ β γ : Type} [Zero H]

def Hashing.hash (hashing : Hashing H σ β γ) (ct : ConsensusType) (b : ConsensusBlock H σ β) : H :=
  hashing.digest b.version (b.image (ct ≠ .request)) (hashing.covered b.body)

def Hashing.computeHash (hashing : Hashing H σ β γ) (preprepareHash : H)
    (signature : AggSignature σ) : H :=
  hashing.postPhaseDigest preprepareHash signature

end LogosCore
