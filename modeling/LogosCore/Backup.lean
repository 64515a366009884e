import LogosCore.Machine
import LogosCore.Messages

/-!
# The backup delegate of request consensus

`BackupDelegate<Request>` with the overrides of `RequestBackupDelegate`: the handlers of
PrePrepare, PostPrepare and PostCommit messages and of post-committed blocks. A handler that ends
in `trace_and_halt` or a failed assertion is `none`.
-/

namespace LogosCore

inductive ConsensusState
  | prePrepare | prepare | postPrepare | commit | postCommit | void | recall | initializing
  deriving DecidableEq

inductive RejectionReason
  | clockDrift | containsInvalidRequest | badSignature | invalidPreviousHash
  | wrongSequenceNumber | invalidEpoch | newEpoch | invalidPrimaryIndex | void
  deriving DecidableEq

inductive EpochTransitionState
  | connecting | epochTransitionStart | epochStart | none
  deriving DecidableEq

inductive EpochTransitionDelegate
  | new | persistent | retiring | none
  deriving DecidableEq

inductive EpochConnection
  | transitioning | waitingDisconnect | current
  deriving DecidableEq

abbrev PrePrepare (H σ ρ : Type) := ConsensusBlock H σ (List ρ)

/-- `PostPhaseMessage`: PostPrepare and PostCommit. -/
structure PostPhaseMessage (H σ : Type) where
  preprepareHash : H
  signature : AggSignature σ
  deriving DecidableEq

namespace Backup

open Quorum

/-- What stays fixed for one backup: its remote primary, keys, hashes and weights. -/
structure Config (H σ ρ : Type) where
  remote : BitVec 8
  expectedEpochNumber : BitVec 32
  hashing : Hashing H σ (List ρ) (List H)
  requestHash : ρ → H
  verifyRemote : H → σ → Bool
  verifyAggregate : H → AggSignature σ → Bool
  thresholds : Thresholds

/-- What a handler reads from outside: the clock, whether the message came by p2p, which requests
`ValidateBatch` rejects, and the epoch transition. -/
structure Surroundings where
  now : BitVec 64
  isP2p : Bool
  rejects : ℕ → Bool
  transitionState : EpochTransitionState
  transitionDelegate : EpochTransitionDelegate
  connection : EpochConnection

structure State (H σ ρ : Type) where
  state : ConsensusState
  prePrepare : Option (PrePrepare H σ ρ)
  prePrepareTimestamp : BitVec 64
  prevPrePrepareHash : H
  prePrepareHash : H
  postPrepareHash : H
  postPrepareSig : AggSignature σ
  sequenceNumber : BitVec 32
  prePrepareHashes : List H
  reason : RejectionReason
  rejectionMap : List Bool

/-- What a backup sends and hands to the block cache, with what its signatures are for. -/
inductive Output (H σ ρ : Type)
  | prepare (preprepareHash : H) (approved : Option (PrePrepare H σ ρ))
  | commit (preprepareHash : H) (signed : H)
  | rejection (preprepareHash : H) (reason : RejectionReason) (rejectionMap : List Bool)
  | store (block : PostCommittedBlock H σ (List ρ))
  deriving DecidableEq

inductive Event (H σ ρ : Type)
  | prePrepare (message : PrePrepare H σ ρ) (env : Surroundings)
  | postPrepare (message : PostPhaseMessage H σ)
  | postCommit (message : PostPhaseMessage H σ)
  | postCommittedBlock (block : PostCommittedBlock H σ (List ρ))

def maxClockDriftMs : BitVec 64 := 20000

def resize (map : List Bool) (n : ℕ) : List Bool := (map ++ List.replicate n false).take n

section Handlers

variable {H σ ρ : Type} [DecidableEq H] [Zero H] [Inhabited σ] (cfg : Config H σ ρ)

def Config.hash (message : PrePrepare H σ ρ) : H := cfg.hashing.hash .request message

def validateTimestamp (message : PrePrepare H σ ρ) (env : Surroundings) : Bool :=
  let drift := if env.now > message.timestamp then env.now - message.timestamp
    else message.timestamp - env.now
  decide (drift ≤ maxClockDriftMs)

def isOldBlock (b : State H σ ρ) (message : PrePrepare H σ ρ) : Bool :=
  decide (message.epochNumber < cfg.expectedEpochNumber) ||
    decide (message.epochNumber = cfg.expectedEpochNumber) &&
      decide (message.sequence < b.sequenceNumber)

/-- `IsSubset`, which is what `ValidateReProposal` returns. -/
def validateReProposal (b : State H σ ρ) (message : PrePrepare H σ ρ) : Bool :=
  message.body.all fun r => cfg.requestHash r ∈ b.prePrepareHashes

def validateSequence (b : State H σ ρ) (message : PrePrepare H σ ρ) : Bool × State H σ ρ :=
  if b.sequenceNumber ≠ message.sequence then
    (false,{ b with reason := .wrongSequenceNumber })
  else (true,b)

def validateRequests (b : State H σ ρ) (message : PrePrepare H σ ρ) (env : Surroundings) :
    Bool × State H σ ρ :=
  let n := message.body.length
  let map := (resize b.rejectionMap n).mapIdx fun i bit => bit || env.rejects i
  let b := { b with rejectionMap := map }
  if (List.range n).any env.rejects then (false,{ b with reason := .containsInvalidRequest })
  else (true,b)

def doValidate (b : State H σ ρ) (message : PrePrepare H σ ρ) (env : Surroundings) :
    Bool × State H σ ρ :=
  match validateSequence b message with
  | (false,b) => (false,b)
  | (true,b) => validateRequests b message env

def validatePrePrepare (b : State H σ ρ) (message : PrePrepare H σ ρ) (env : Surroundings) :
    Bool × State H σ ρ :=
  if message.primaryDelegate ≠ cfg.remote then
    (false,{ b with reason := .invalidPrimaryIndex })
  else if !cfg.verifyRemote (cfg.hash message) message.preprepareSig then
    (false,{ b with reason := .badSignature })
  else if message.previous ≠ b.prevPrePrepareHash then
    (false,{ b with reason := .invalidPreviousHash })
  else if b.state = .prepare ∧ !validateReProposal cfg b message then (false,b)
  else doValidate b message env

def validateEpoch (b : State H σ ρ) (env : Surroundings) : Bool × State H σ ρ :=
  if env.connection = .waitingDisconnect then (false,{ b with reason := .newEpoch })
  else if env.transitionState = .connecting ∧
      (env.transitionDelegate = .persistent ∧ env.connection = .transitioning ∨
        env.transitionDelegate = .new) then
    (false,{ b with reason := .invalidEpoch })
  else (true,b)

/-- `ProceedWithMessage(message, ConsensusState::VOID)`. -/
def proceedWithPrePrepare (b : State H σ ρ) (message : PrePrepare H σ ρ) (env : Surroundings) :
    Bool × State H σ ρ :=
  if b.state ≠ .void then (false,b)
  else
    match validatePrePrepare cfg b message env with
    | (false,b) => (false,b)
    | (true,b) => validateEpoch b env

/-- `HandlePrePrepare`: only the hashes of the requests are kept here. -/
def handlePrePrepare (b : State H σ ρ) (message : PrePrepare H σ ρ) : State H σ ρ :=
  { b with prePrepareHashes := message.body.map cfg.requestHash }

/-- `HandleReject`; queueing the agreed requests for later touches other components only. -/
def handleReject (b : State H σ ρ) (message : PrePrepare H σ ρ) (env : Surroundings) :
    State H σ ρ :=
  match b.reason with
  | .containsInvalidRequest => { b with prePrepareHashes := [] }
  | .newEpoch =>
    if env.connection = .waitingDisconnect ∧ env.transitionDelegate = .persistent then
      { b with prePrepare := some message }
    else b
  | _ => b

def reject (b : State H σ ρ) (preprepareHash : H) : List (Output H σ ρ) :=
  match b.reason with
  | .void => []
  | reason => [.rejection preprepareHash reason b.rejectionMap]

def resetRejectionStatus (b : State H σ ρ) : State H σ ρ :=
  { b with reason := .void,rejectionMap := [] }

/-- The part of the PrePrepare handler that follows the checks for known and old blocks. -/
def considerPrePrepare (b : State H σ ρ) (message : PrePrepare H σ ρ) (env : Surroundings) :
    State H σ ρ × List (Output H σ ρ) :=
  let hash := cfg.hash message
  if !validateTimestamp message env ∧ !env.isP2p then (b,[])
  else
    match proceedWithPrePrepare cfg b message env with
    | (true,b) =>
      let b := { b with
        prePrepareTimestamp := message.timestamp
        prePrepareHash := hash
        state := .prepare
        prePrepare := some message }
      (handlePrePrepare cfg b message,[.prepare hash (some message)])
    | (false,b) =>
      let b := handleReject b message env
      (resetRejectionStatus b,reject b hash)

def onPrePrepare (b : State H σ ρ) (message : PrePrepare H σ ρ) (env : Surroundings) :
    State H σ ρ × List (Output H σ ρ) :=
  let hash := cfg.hash message
  if hash = b.prePrepareHash then
    if b.state = .prepare ∨ b.state = .commit then (b,[.prepare hash b.prePrepare])
    else considerPrePrepare cfg b message env
  else if isOldBlock cfg b message then (b,[])
  else considerPrePrepare cfg b message env

/-- `Validate` of a PostPrepare: the aggregate signature and the quorum. -/
def validatePostPrepare (b : State H σ ρ) (message : PostPhaseMessage H σ) : Bool :=
  decide (b.prePrepareHash = message.preprepareHash) &&
    cfg.verifyAggregate b.prePrepareHash message.signature &&
    cfg.thresholds.validateQuorum message.signature.map

def onPostPrepare (b : State H σ ρ) (message : PostPhaseMessage H σ) :
    Option (State H σ ρ × List (Output H σ ρ)) :=
  let hash := cfg.hashing.computeHash message.preprepareHash message.signature
  if hash = b.postPrepareHash then
    if b.state = .void ∨ b.state = .prepare then none
    else some (b,[.commit b.prePrepareHash b.postPrepareHash])
  else if b.state = .prepare ∧ validatePostPrepare cfg b message then
    let b := { b with
      postPrepareHash := hash
      postPrepareSig := message.signature
      state := .commit }
    some (b,[.commit b.prePrepareHash b.postPrepareHash])
  else some (b,[])

/-- `Validate` of a PostCommit, which asserts that the state is COMMIT. -/
def validatePostCommit (b : State H σ ρ) (message : PostPhaseMessage H σ) : Option Bool :=
  if b.state ≠ .commit then none
  else some (decide (b.prePrepareHash = message.preprepareHash) &&
    cfg.verifyAggregate b.postPrepareHash message.signature &&
    cfg.thresholds.validateQuorum message.signature.map)

/-- `AdvanceCounter` and the resets that end a round. -/
def finishRound (b : State H σ ρ) (prePrepare : PrePrepare H σ ρ) : State H σ ρ :=
  { b with
    state := .void
    prevPrePrepareHash := b.prePrepareHash
    sequenceNumber := prePrepare.sequence + 1
    prePrepareHash := 0
    postPrepareSig := ⟨∅,default⟩
    postPrepareHash := 0 }

def onPostCommit (b : State H σ ρ) (message : PostPhaseMessage H σ) :
    Option (State H σ ρ × List (Output H σ ρ)) :=
  if b.state ≠ .commit then some (b,[])
  else
    match validatePostCommit cfg b message with
    | none => none
    | some false => some (b,[])
    | some true =>
      match b.prePrepare with
      | none => some (b,[])
      | some prePrepare =>
        if message.preprepareHash = b.prePrepareHash then
          some (finishRound b prePrepare,[.store ⟨prePrepare,b.postPrepareSig,message.signature⟩])
        else some (b,[])

def onPostCommittedBlock (b : State H σ ρ) (block : PostCommittedBlock H σ (List ρ)) :
    Option (State H σ ρ × List (Output H σ ρ)) :=
  let hash := cfg.hash block.toConsensusBlock
  if b.prePrepare.isSome ∧ b.prePrepareHash = hash ∨ b.prevPrePrepareHash = block.previous then
    let b := if b.prePrepare.isNone ∨ b.prePrepareHash ≠ hash then
        { b with prePrepare := some block.toConsensusBlock,prePrepareHash := hash }
      else b
    match b.prePrepare with
    | none => none
    | some prePrepare => some (finishRound b prePrepare,[])
  else some (b,[])

def step (b : State H σ ρ) : Event H σ ρ → Option (State H σ ρ × List (Output H σ ρ))
  | .prePrepare message env => some (onPrePrepare cfg b message env)
  | .postPrepare message => onPostPrepare cfg b message
  | .postCommit message => onPostCommit cfg b message
  | .postCommittedBlock block => onPostCommittedBlock cfg b block

/-- The constructor of `RequestBackupDelegate`, from the tip of the remote delegate and its
block. -/
def init (tipDigest : H) (tipBlock : Option (PrePrepare H σ ρ)) : State H σ ρ where
  state := .void
  prePrepare := none
  prePrepareTimestamp := 0
  prevPrePrepareHash := tipDigest
  prePrepareHash := 0
  postPrepareHash := 0
  postPrepareSig := ⟨∅,default⟩
  sequenceNumber :=
    match tipBlock with
    | some block => if tipDigest ≠ 0 then block.sequence + 1 else 0
    | none => 0
  prePrepareHashes := []
  reason := .void
  rejectionMap := []

end Handlers

section Effects

variable {H σ ρ : Type} [DecidableEq H] [Zero H] [Inhabited σ] (cfg : Config H σ ρ)

/-- The members that only the end of a round changes. -/
def Kept (b b' : State H σ ρ) : Prop :=
  b'.prevPrePrepareHash = b.prevPrePrepareHash ∧ b'.sequenceNumber = b.sequenceNumber ∧
    b'.postPrepareHash = b.postPrepareHash ∧ b'.postPrepareSig = b.postPrepareSig

theorem Kept.rfl {b : State H σ ρ} : Kept b b := ⟨Eq.refl _,Eq.refl _,Eq.refl _,Eq.refl _⟩

theorem Kept.trans {b1 b2 b3 : State H σ ρ} (h : Kept b1 b2) (h' : Kept b2 b3) : Kept b1 b3 :=
  ⟨h'.1.trans h.1,h'.2.1.trans h.2.1,h'.2.2.1.trans h.2.2.1,h'.2.2.2.trans h.2.2.2⟩

/-- What one event can do, with the checks that led there. -/
inductive Effect (b : State H σ ρ) : Event H σ ρ → State H σ ρ → List (Output H σ ρ) → Prop
  | approve {m env b'} (hvoid : b.state = .void) (hprev : m.previous = b.prevPrePrepareHash)
      (hseq : m.sequence = b.sequenceNumber) (hstate : b'.state = .prepare)
      (hm : b'.prePrepare = some m) (hhash : b'.prePrepareHash = cfg.hash m) (hkept : Kept b b') :
      Effect b (.prePrepare m env) b' [.prepare (cfg.hash m) (some m)]
  | repeatPrepare {m env} (hstate : b.state = .prepare ∨ b.state = .commit)
      (hhash : cfg.hash m = b.prePrepareHash) :
      Effect b (.prePrepare m env) b [.prepare b.prePrepareHash b.prePrepare]
  | decline {m env b' o} (hstate : b'.state = b.state)
      (hhash : b'.prePrepareHash = b.prePrepareHash) (hkept : Kept b b')
      (hm : b.state ≠ .void → b'.prePrepare = b.prePrepare)
      (ho : o = [] ∨ ∃ h r map,o = [.rejection h r map])
      (hinvalid : ∀ h map,o = [.rejection h .containsInvalidRequest map] →
        b.state = .void ∧ m.previous = b.prevPrePrepareHash ∧ m.sequence = b.sequenceNumber) :
      Effect b (.prePrepare m env) b' o
  | approveCommit {m} (hstate : b.state = .prepare) (hvalid : validatePostPrepare cfg b m) :
      Effect b (.postPrepare m)
        { b with
          postPrepareHash := cfg.hashing.computeHash m.preprepareHash m.signature
          postPrepareSig := m.signature
          state := .commit }
        [.commit b.prePrepareHash (cfg.hashing.computeHash m.preprepareHash m.signature)]
  | repeatCommit {m} (hvoid : b.state ≠ .void) (hprepare : b.state ≠ .prepare) :
      Effect b (.postPrepare m) b [.commit b.prePrepareHash b.postPrepareHash]
  | finish {m pp} (hstate : b.state = .commit) (hpp : b.prePrepare = some pp)
      (hvalid : validatePostCommit cfg b m = some true) :
      Effect b (.postCommit m) (finishRound b pp) [.store ⟨pp,b.postPrepareSig,m.signature⟩]
  | adopt {block pp} (hpp : b.prePrepare = some pp ∧ b.prePrepareHash = cfg.hash block.toConsensusBlock ∨
        pp = block.toConsensusBlock ∧ b.prevPrePrepareHash = block.previous) :
      Effect b (.postCommittedBlock block)
        (finishRound
          { b with prePrepare := some pp,prePrepareHash := cfg.hash block.toConsensusBlock } pp) []
  | ignore {e} : Effect b e b []

variable {cfg} {b b' : State H σ ρ} {m : PrePrepare H σ ρ} {env : Surroundings}

theorem doValidate_true (h : doValidate b m env = (true,b')) :
    m.sequence = b.sequenceNumber ∧ b' = { b with rejectionMap := b'.rejectionMap } := by
  unfold doValidate validateSequence validateRequests at h
  split_ifs at h with hseq
  · simp at h
  · dsimp only at h
    split_ifs at h with hreq
    · simp at h
    · cases h
      exact ⟨(not_not.mp hseq).symm,rfl⟩

theorem doValidate_false (h : doValidate b m env = (false,b')) :
    b' = { b with reason := b'.reason,rejectionMap := b'.rejectionMap } := by
  unfold doValidate validateSequence validateRequests at h
  split_ifs at h with hseq
  · cases h
    rfl
  · dsimp only at h
    split_ifs at h
    · cases h
      rfl
    · simp at h

theorem validatePrePrepare_true (h : validatePrePrepare cfg b m env = (true,b')) :
    m.previous = b.prevPrePrepareHash ∧ m.sequence = b.sequenceNumber ∧
      b' = { b with rejectionMap := b'.rejectionMap } := by
  unfold validatePrePrepare at h
  split_ifs at h with _ _ hprev
  · simp at h
  · simp at h
  · simp at h
  · simp at h
  · exact ⟨not_not.mp hprev,doValidate_true h⟩

theorem validatePrePrepare_false (h : validatePrePrepare cfg b m env = (false,b')) :
    b' = { b with reason := b'.reason,rejectionMap := b'.rejectionMap } := by
  unfold validatePrePrepare at h
  split_ifs at h
  · cases h
    rfl
  · cases h
    rfl
  · cases h
    rfl
  · cases h
    rfl
  · exact doValidate_false h

theorem validateEpoch_true (h : validateEpoch b env = (true,b')) : b = b' := by
  unfold validateEpoch at h
  split_ifs at h
  · simp at h
  · simp at h
  · simpa using h

theorem validateEpoch_false (h : validateEpoch b env = (false,b')) :
    b' = { b with reason := b'.reason } := by
  unfold validateEpoch at h
  split_ifs at h
  · cases h
    rfl
  · cases h
    rfl
  · simp at h

/-- Validation in VOID writes only reason and rejection map, and passes only the next block. -/
theorem proceedWithPrePrepare_true (h : proceedWithPrePrepare cfg b m env = (true,b')) :
    b.state = .void ∧ m.previous = b.prevPrePrepareHash ∧ m.sequence = b.sequenceNumber ∧
      b' = { b with rejectionMap := b'.rejectionMap } := by
  unfold proceedWithPrePrepare at h
  split_ifs at h with hvoid
  · simp at h
  · split at h
    · simp at h
    · next b1 hval =>
      obtain ⟨hprev,hseq,hb1⟩ := validatePrePrepare_true hval
      obtain rfl := validateEpoch_true h
      exact ⟨not_not.mp hvoid,hprev,hseq,hb1⟩

theorem proceedWithPrePrepare_false (h : proceedWithPrePrepare cfg b m env = (false,b')) :
    b' = { b with reason := b'.reason,rejectionMap := b'.rejectionMap } ∧
      (b.state ≠ .void → b' = b) := by
  unfold proceedWithPrePrepare at h
  split_ifs at h with hvoid
  · cases h
    exact ⟨rfl,fun _ => rfl⟩
  · refine ⟨?_,fun hne => absurd hne hvoid⟩
    split at h
    · next b1 hval =>
      cases h
      exact validatePrePrepare_false hval
    · next b1 hval =>
      obtain ⟨-,-,hb1⟩ := validatePrePrepare_true hval
      rw [validateEpoch_false h,hb1]

/-- Requests are only looked at in the next block of the primary. -/
theorem proceedWithPrePrepare_invalid (hreason : b.reason = .void)
    (h : proceedWithPrePrepare cfg b m env = (false,b'))
    (hinvalid : b'.reason = .containsInvalidRequest) :
    b.state = .void ∧ m.previous = b.prevPrePrepareHash ∧ m.sequence = b.sequenceNumber := by
  unfold proceedWithPrePrepare validatePrePrepare doValidate validateSequence at h
  by_cases hvoid : b.state = .void
  · refine ⟨hvoid,?_⟩
    split_ifs at h with hne _ _ hprev _ hseq
    · exact absurd hvoid hne
    · cases h
      cases hinvalid
    · cases h
      cases hinvalid
    · cases h
      cases hinvalid
    · cases h
      simp [hreason] at hinvalid
    · cases h
      cases hinvalid
    · exact ⟨not_not.mp hprev,(not_not.mp hseq).symm⟩
  · rw [if_pos hvoid] at h
    cases h
    simp [hreason] at hinvalid

theorem handleReject_kept (b : State H σ ρ) (m : PrePrepare H σ ρ) (env : Surroundings) :
    (handleReject b m env).state = b.state ∧
      (handleReject b m env).prePrepareHash = b.prePrepareHash ∧
      (handleReject b m env).reason = b.reason ∧ Kept b (handleReject b m env) := by
  unfold handleReject
  split
  · exact ⟨rfl,rfl,rfl,.rfl⟩
  · split_ifs <;> exact ⟨rfl,rfl,rfl,.rfl⟩
  · exact ⟨rfl,rfl,rfl,.rfl⟩

theorem reject_reason {hash h : H} {r : RejectionReason} {map : List Bool}
    (hr : reject b hash = [.rejection h r map]) : b.reason = r := by
  unfold reject at hr
  split at hr
  · cases hr
  · cases hr
    rfl

theorem considerPrePrepare_effect (hreason : b.reason = .void) :
    Effect cfg b (.prePrepare m env) (considerPrePrepare cfg b m env).1
        (considerPrePrepare cfg b m env).2 ∧
      (considerPrePrepare cfg b m env).1.reason = .void := by
  unfold considerPrePrepare
  dsimp only
  split_ifs
  · exact ⟨.ignore,hreason⟩
  · split
    · next b1 hproceed =>
      obtain ⟨hvoid,hprev,hseq,hb1⟩ := proceedWithPrePrepare_true hproceed
      rw [hb1]
      exact ⟨.approve hvoid hprev hseq rfl rfl rfl .rfl,hreason⟩
    · next b1 hproceed =>
      obtain ⟨hb1,hsame⟩ := proceedWithPrePrepare_false hproceed
      obtain ⟨hstate,hhash,hkeptReason,hkept⟩ := handleReject_kept b1 m env
      have hstate1 : b1.state = b.state := by rw [hb1]
      have hhash1 : b1.prePrepareHash = b.prePrepareHash := by rw [hb1]
      have hkept1 : Kept b b1 := by
        rw [hb1]
        exact .rfl
      refine ⟨.decline (hstate.trans hstate1) (hhash.trans hhash1) (hkept1.trans hkept) ?_ ?_ ?_,rfl⟩
      · intro hne
        rw [hsame hne]
        simp [resetRejectionStatus,handleReject,hreason]
      · unfold reject
        split
        · exact .inl rfl
        · exact .inr ⟨_,_,_,rfl⟩
      · intro h map hinvalid
        exact proceedWithPrePrepare_invalid hreason hproceed
          (hkeptReason.symm.trans (reject_reason hinvalid))

theorem onPrePrepare_effect (hreason : b.reason = .void) :
    Effect cfg b (.prePrepare m env) (onPrePrepare cfg b m env).1 (onPrePrepare cfg b m env).2 ∧
      (onPrePrepare cfg b m env).1.reason = .void := by
  unfold onPrePrepare
  dsimp only
  split_ifs with hhash hstate
  · rw [hhash]
    exact ⟨.repeatPrepare hstate hhash,hreason⟩
  · exact considerPrePrepare_effect hreason
  · exact ⟨.ignore,hreason⟩
  · exact considerPrePrepare_effect hreason

/-- The only way for a handler to stop the process. -/
theorem step_eq_none {e : Event H σ ρ} (h : step cfg b e = none) :
    ∃ m,e = .postPrepare m ∧
      cfg.hashing.computeHash m.preprepareHash m.signature = b.postPrepareHash ∧
      (b.state = .void ∨ b.state = .prepare) := by
  cases e with
  | prePrepare m env => simp [step] at h
  | postPrepare m =>
    simp only [step,onPostPrepare] at h
    split_ifs at h with hhash hstate
    exact ⟨m,rfl,hhash,hstate⟩
  | postCommit m =>
    simp only [step,onPostCommit] at h
    by_cases hstate : b.state = .commit
    · rw [if_neg (not_not.mpr hstate)] at h
      split at h
      · next hvalid => simp [validatePostCommit,hstate] at hvalid
      · cases h
      · split at h
        · cases h
        · split at h <;> cases h
    · simp [hstate] at h
  | postCommittedBlock block =>
    simp only [step,onPostCommittedBlock] at h
    split_ifs at h with hmatch hnew
    split at h
    · next hnone => simp [hnone] at hnew
    · cases h

theorem step_effect {e : Event H σ ρ} {o : List (Output H σ ρ)} (hreason : b.reason = .void)
    (h : step cfg b e = some (b',o)) : Effect cfg b e b' o ∧ b'.reason = .void := by
  cases e with
  | prePrepare m env =>
    have heffect : Effect cfg b (.prePrepare m env) (onPrePrepare cfg b m env).1
        (onPrePrepare cfg b m env).2 ∧ _ := onPrePrepare_effect hreason
    simp only [step,Option.some.injEq] at h
    rw [h] at heffect
    exact heffect
  | postPrepare m =>
    simp only [step,onPostPrepare] at h
    split_ifs at h with hhash hstate hvalid
    · cases h
      push Not at hstate
      exact ⟨.repeatCommit hstate.1 hstate.2,hreason⟩
    · cases h
      exact ⟨.approveCommit hvalid.1 hvalid.2,hreason⟩
    · cases h
      exact ⟨.ignore,hreason⟩
  | postCommit m =>
    simp only [step,onPostCommit] at h
    by_cases hstate : b.state = .commit
    · rw [if_neg (not_not.mpr hstate)] at h
      split at h
      · cases h
      · cases h
        exact ⟨.ignore,hreason⟩
      · next hvalid =>
        split at h
        · cases h
          exact ⟨.ignore,hreason⟩
        · next pp hpp =>
          split_ifs at h
          · cases h
            exact ⟨.finish hstate hpp hvalid,hreason⟩
          · cases h
            exact ⟨.ignore,hreason⟩
    · rw [if_pos hstate] at h
      cases h
      exact ⟨.ignore,hreason⟩
  | postCommittedBlock block =>
    simp only [step,onPostCommittedBlock] at h
    split_ifs at h with hmatch hnew
    · cases h
      refine ⟨.adopt (.inr ⟨rfl,?_⟩),hreason⟩
      rcases hmatch with ⟨hsome,hhash⟩ | hprev
      · rcases hnew with hnone | hne
        · simp [Option.isNone_iff_eq_none.mp hnone] at hsome
        · exact absurd hhash hne
      · exact hprev
    · split at h
      · cases h
      · next pp hpp =>
        cases h
        push Not at hnew
        refine ⟨?_,hreason⟩
        have hadopt : Effect cfg b (.postCommittedBlock block)
            (finishRound { b with
              prePrepare := some pp
              prePrepareHash := cfg.hash block.toConsensusBlock } pp) [] :=
          .adopt (.inl ⟨hpp,hnew.2⟩)
        rwa [← hpp,← hnew.2] at hadopt
    · cases h
      exact ⟨.ignore,hreason⟩

end Effects

section Acceptance

variable {H σ ρ : Type} [DecidableEq H] [Zero H] [Inhabited σ] {cfg : Config H σ ρ}
variable {b : State H σ ρ} {m : PrePrepare H σ ρ} {env : Surroundings}

/-- The next batch of the primary, all of whose requests are valid, as an idle backup finds it. -/
structure Acceptable (cfg : Config H σ ρ) (b : State H σ ρ) (m : PrePrepare H σ ρ)
    (env : Surroundings) : Prop where
  state : b.state = .void
  primaryDelegate : m.primaryDelegate = cfg.remote
  signed : cfg.verifyRemote (cfg.hash m) m.preprepareSig = true
  previous : m.previous = b.prevPrePrepareHash
  sequence : m.sequence = b.sequenceNumber
  epochNumber : m.epochNumber = cfg.expectedEpochNumber
  fresh : validateTimestamp m env = true ∨ env.isP2p = true
  valid : ∀ i < m.body.length,env.rejects i = false
  connection : env.connection ≠ .waitingDisconnect
  transition : ¬(env.transitionState = .connecting ∧
    (env.transitionDelegate = .persistent ∧ env.connection = .transitioning ∨
      env.transitionDelegate = .new))

theorem Acceptable.proceed (h : Acceptable cfg b m env) :
    ∃ map,proceedWithPrePrepare cfg b m env = (true,{ b with rejectionMap := map }) := by
  have hvalid : (List.range m.body.length).any env.rejects = false := by
    rw [List.any_eq_false]
    intro i hi
    simp [h.valid i (List.mem_range.mp hi)]
  have hsequence : doValidate b m env = validateRequests b m env := by
    simp only [doValidate,validateSequence,if_neg (not_not.mpr h.sequence.symm)]
  have hvalidate : validatePrePrepare cfg b m env = validateRequests b m env := by
    rw [validatePrePrepare,if_neg (not_not.mpr h.primaryDelegate),if_neg (by simp [h.signed]),
      if_neg (not_not.mpr h.previous),if_neg (by simp [h.state]),hsequence]
  refine ⟨(resize b.rejectionMap m.body.length).mapIdx fun i bit => bit || env.rejects i,?_⟩
  rw [proceedWithPrePrepare,if_neg (not_not.mpr h.state),hvalidate]
  simp only [validateRequests,hvalid,validateEpoch,if_neg h.connection,if_neg h.transition]
  rfl

/-- An acceptable batch is prepared. -/
theorem Acceptable.onPrePrepare (h : Acceptable cfg b m env) :
    ∃ b',onPrePrepare cfg b m env = (b',[.prepare (cfg.hash m) (some m)]) ∧
      b'.state = .prepare ∧ b'.prePrepareHash = cfg.hash m ∧
      b'.postPrepareHash = b.postPrepareHash := by
  obtain ⟨map,hproceed⟩ := h.proceed
  have hold : isOldBlock cfg b m = false := by
    simp [isOldBlock,h.epochNumber,h.sequence]
  have hstamp : ¬((!validateTimestamp m env) = true ∧ (!env.isP2p) = true) := by
    rcases h.fresh with hfresh | hp2p
    · simp [hfresh]
    · simp [hp2p]
  have hconsider : ∃ b',considerPrePrepare cfg b m env =
      (b',[.prepare (cfg.hash m) (some m)]) ∧ b'.state = .prepare ∧
      b'.prePrepareHash = cfg.hash m ∧ b'.postPrepareHash = b.postPrepareHash := by
    simp only [considerPrePrepare,if_neg hstamp,hproceed]
    exact ⟨_,rfl,rfl,rfl,rfl⟩
  have hidle : ¬(b.state = .prepare ∨ b.state = .commit) := by simp [h.state]
  simp only [Backup.onPrePrepare,if_neg hidle,hold]
  by_cases hhash : cfg.hash m = b.prePrepareHash
  · rw [if_pos hhash]
    exact hconsider
  · rw [if_neg hhash]
    exact hconsider

end Acceptance

end Backup
end LogosCore
