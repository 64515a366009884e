import LogosCore.Backup
import LogosCore.Subsets

/-!
# The primary delegate of request consensus

`PrimaryDelegate` with `ConsensusManager<Request>` and `RequestConsensusManager`: the tally of
Prepare, Commit and Rejection messages, the re-proposal of a batch after a timeout and of its
subsets after rejections, and the internal request queue. A handler that ends in `trace_and_halt`
or in undefined behaviour is `none`.
-/

namespace LogosCore

/-- `StandardPhaseMessage`: Prepare and Commit. -/
structure StandardPhaseMessage (H σ : Type) where
  preprepareHash : H
  signature : σ
  deriving DecidableEq

structure RejectionMessage (H σ : Type) where
  preprepareHash : H
  reason : RejectionReason
  rejectionMap : List Bool
  signature : σ
  deriving DecidableEq

namespace Primary

open Option Quorum Subsets

/-- What stays fixed for one primary; sets of request indexes are walked in the given order. -/
structure Config (H σ ρ : Type) where
  delegateId : DelegateId
  epochNumber : BitVec 32
  weights : DelegateId → Weight
  hashing : Hashing H σ (List ρ) (List H)
  requestHash : ρ → H
  rejectionHash : RejectionMessage H σ → H
  sign : H → σ
  verify : DelegateId → H → σ → Bool
  aggregate : (DelegateId → Option σ) → σ
  indexOrder : Finset ℕ → List ℕ
  nodup_indexOrder : ∀ s,(indexOrder s).Nodup
  mem_indexOrder : ∀ s i,i ∈ indexOrder s ↔ i ∈ s

/-- What a handler reads from outside: the clock, the requests due, and outcomes of validation. -/
structure Surroundings (ρ : Type) where
  now : BitVec 64
  due : List ρ
  rejects : ℕ → Bool
  proceedWithRePropose : Bool

/-- The members of one request primary; a `none` in the queue closes a batch. -/
structure State (H σ ρ : Type) where
  state : ConsensusState
  stateChanging : Bool
  ongoing : Bool
  prevPrePrepareHash : H
  prePrepareHash : H
  postPrepareHash : H
  prePrepareSig : σ
  postPrepareSig : AggSignature σ
  postCommitSig : AggSignature σ
  prepareVote : BitVec 128
  prepareStake : BitVec 128
  signatures : DelegateId → Option σ
  responseWeights : ℕ → Weights DelegateId
  hashes : Finset H
  reproposeSubset : Bool
  neRejectVote : BitVec 128
  neRejectStake : BitVec 128
  sequence : BitVec 32
  currentBatch : PrePrepare H σ ρ
  requestQueue : List (Option ρ)

/-- What a remote delegate sends to a primary. -/
inductive Message (H σ : Type)
  | prepare (message : StandardPhaseMessage H σ)
  | commit (message : StandardPhaseMessage H σ)
  | rejection (message : RejectionMessage H σ)
  deriving DecidableEq

def Message.preprepareHash {H σ : Type} : Message H σ → H
  | prepare m => m.preprepareHash
  | commit m => m.preprepareHash
  | rejection m => m.preprepareHash

def Message.signature {H σ : Type} : Message H σ → σ
  | prepare m => m.signature
  | commit m => m.signature
  | rejection m => m.signature

def Message.isRejection {H σ : Type} : Message H σ → Bool
  | rejection _ => true
  | _ => false

def Message.isCommit {H σ : Type} : Message H σ → Bool
  | commit _ => true
  | _ => false

/-- What a primary sends and stores, with a trace of `Tally`. -/
inductive Output (H σ ρ : Type)
  | prePrepare (message : PrePrepare H σ ρ)
  | postPrepare (sequence : BitVec 32) (message : PostPhaseMessage H σ)
  | postCommit (message : PostPhaseMessage H σ)
  | store (block : PostCommittedBlock H σ (List ρ))
  | tallied (remote : DelegateId) (message : Message H σ)
  deriving DecidableEq

inductive Event (H σ ρ : Type)
  | message (remote : DelegateId) (message : Message H σ) (env : Surroundings ρ)
  | prePrepareTimeout (env : Surroundings ρ)
  | postPrepareTimeout (env : Surroundings ρ)
  | messageQueued (env : Surroundings ρ)
  | start (transitioning : Bool) (env : Surroundings ρ)

def consensusBatchSize : ℕ := 1500

def logosVersion : BitVec 8 := 0

section Queue

variable {H ρ : Type} [DecidableEq H]

/-- `MessageHandler::MoveToTarget`: the requests that are due, closed by a delimiter. -/
def moveToTarget (due : List ρ) : List (Option ρ) :=
  (due.take consensusBatchSize).map some ++ [none]

/-- The loop of `ConstructBatch`: the valid requests of the first group, and the queue without the
others. It runs past the end of a queue without a delimiter. -/
def takeBatch (rejects : ℕ → Bool) :
    ℕ → List ρ → List (Option ρ) → Option (List ρ × List (Option ρ))
  | _,_,[] => none
  | _,batch,none :: rest => some (batch,none :: rest)
  | pos,batch,some r :: rest =>
    if rejects pos then takeBatch rejects (pos + 1) batch rest
    else if consensusBatchSize ≤ batch.length then some (batch,some r :: rest)
    else (takeBatch rejects (pos + 1) (batch ++ [r]) rest).map fun q => (q.1,some r :: q.2)

/-- `RequestInternalQueue::PopFront`: drops the requests of the batch, then the delimiter. -/
def popFront (requestHash : ρ → H) (batch : List ρ) (queue : List (Option ρ)) :
    Option (List (Option ρ)) :=
  match queue.filter fun entry => entry.all fun r => requestHash r ∉ batch.map requestHash with
  | none :: rest => some rest
  | _ => none

end Queue

section Handlers

variable {H σ ρ : Type} [DecidableEq H] [Zero H] [Inhabited σ] (cfg : Config H σ ρ)

abbrev Config.thresholds : Thresholds := onCurrentEpochSet cfg.delegateId cfg.weights

def Config.hash (message : PrePrepare H σ ρ) : H := cfg.hashing.hash .request message

def Config.rejected (rejectVote rejectStake : BitVec 128) : Bool :=
  decide (cfg.thresholds.voteMaxFault < rejectVote) ||
    decide (cfg.thresholds.stakeMaxFault < rejectStake)

def emptyPrePrepare (now : BitVec 64) : PrePrepare H σ ρ where
  primaryDelegate := 0xff
  epochNumber := 0
  delegatesEpochNumber := 0
  sequence := 0
  timestamp := now
  previous := 0
  preprepareSig := default
  version := logosVersion
  body := []

/-- `AdvanceState`, with the `OnStateAdvanced` of the request manager. -/
def advanceState (p : State H σ ρ) (newState : ConsensusState) : State H σ ρ :=
  { p with
    state := newState
    prepareVote := cfg.thresholds.myVote
    prepareStake := cfg.thresholds.myStake
    signatures := fun _ => none
    responseWeights := fun _ => {}
    stateChanging := false }

def constructBatch (p : State H σ ρ) (env : Surroundings ρ) : Option (State H σ ρ) :=
  match takeBatch env.rejects 0 [] p.requestQueue with
  | none => none
  | some (batch,queue) =>
    some { p with
      requestQueue := queue
      hashes := p.hashes ∪ (batch.map cfg.requestHash).toFinset
      currentBatch := { (emptyPrePrepare env.now : PrePrepare H σ ρ) with
        epochNumber := cfg.epochNumber
        sequence := p.sequence
        primaryDelegate := BitVec.ofNat 8 cfg.delegateId.val
        previous := p.prevPrePrepareHash
        body := batch } }

def prePrepareGetNext (p : State H σ ρ) (reproposing : Bool) (env : Surroundings ρ) :
    Option (State H σ ρ) :=
  let p := { p with neRejectVote := 0,neRejectStake := 0,hashes := ∅ }
  if reproposing && !p.reproposeSubset then some p
  else
    let queue := if p.requestQueue.isEmpty then moveToTarget env.due else p.requestQueue
    constructBatch cfg { p with reproposeSubset := false,requestQueue := queue } env

/-- `ConsensusManager::InitiateConsensus` with `OnConsensusInitiated`. -/
def initiateConsensus (p : State H σ ρ) (reproposing : Bool) (env : Surroundings ρ) :
    Option (State H σ ρ × List (Output H σ ρ)) :=
  match prePrepareGetNext cfg p reproposing env with
  | none => none
  | some p =>
    let batch := { p.currentBatch with delegatesEpochNumber := cfg.epochNumber }
    let hash := cfg.hash batch
    let message := { batch with preprepareSig := cfg.sign hash }
    some (advanceState cfg { p with
      currentBatch := message
      prePrepareHash := hash
      prePrepareSig := cfg.sign hash } .prePrepare,[.prePrepare message])

def prePreparePopFront (p : State H σ ρ) (env : Surroundings ρ) : Option (State H σ ρ) :=
  (popFront cfg.requestHash p.currentBatch.body p.requestQueue).map fun queue =>
    { p with requestQueue := queue,currentBatch := emptyPrePrepare env.now }

/-- `OnMessageQueued`: starts a round when none is going on and something is queued. -/
def onMessageQueued (p : State H σ ρ) (env : Surroundings ρ) :
    Option (State H σ ρ × List (Output H σ ρ)) :=
  if p.ongoing || (p.requestQueue.isEmpty && env.due.isEmpty) then some (p,[])
  else initiateConsensus cfg { p with ongoing := true } false env

def beginNextRound (p : State H σ ρ) (env : Surroundings ρ) :
    Option (State H σ ρ × List (Output H σ ρ)) :=
  match prePreparePopFront cfg { p with prevPrePrepareHash := p.prePrepareHash } env with
  | none => none
  | some p => onMessageQueued cfg { p with ongoing := false } env

/-- `OnConsensusReached`: stores the post-committed block and begins the next round. -/
def onConsensusReached (p : State H σ ρ) (env : Surroundings ρ) :
    Option (State H σ ρ × List (Output H σ ρ)) :=
  let block := ⟨p.currentBatch,p.postPrepareSig,p.postCommitSig⟩
  (beginNextRound cfg { p with sequence := p.sequence + 1 } env).map fun r =>
    (r.1,.store block :: r.2)

/-- `OnQuorumFailed`; a request primary is never already post-committed. -/
def onQuorumFailed (p : State H σ ρ) (env : Surroundings ρ) :
    Option (State H σ ρ × List (Output H σ ρ)) :=
  if env.proceedWithRePropose then initiateConsensus cfg (advanceState cfg p .void) true env
  else some (p,[])

def onTimeout (p : State H σ ρ) (expected : ConsensusState) (env : Surroundings ρ) :
    Option (State H σ ρ × List (Output H σ ρ)) :=
  if p.state ≠ expected then some (p,[]) else onQuorumFailed cfg p env

/-- `TallyStandardPhaseMessage`: a delegate that is already in the signatures does not count. -/
def tallyStandardPhaseMessage (p : State H σ ρ) (remote : DelegateId) (signature : σ) :
    State H σ ρ :=
  if (p.signatures remote).isSome then p
  else { p with
    prepareVote := p.prepareVote + (cfg.weights remote).voteWeight
    prepareStake := p.prepareStake + (cfg.weights remote).stakeWeight
    signatures := Function.update p.signatures remote (some signature) }

/-- Whether those that prepared the batch or only support request `i` reach quorum. -/
def indirectQuorum (p : State H σ ρ) (i : ℕ) : Bool :=
  cfg.thresholds.reachedQuorum ((p.responseWeights i).indirectVoteSupport + p.prepareVote)
    ((p.responseWeights i).indirectStakeSupport + p.prepareStake)

/-- Drop the hashes of the requests `i` of the current batch that are settled. -/
def eraseSettled (p : State H σ ρ) (settled : ℕ → Bool) : State H σ ρ :=
  { p with hashes := p.hashes \ ((p.currentBatch.body.mapIdx fun i r => (i,r)).filterMap
      fun q => if settled q.1 then some (cfg.requestHash q.2) else none).toFinset }

def tallyPrepareMessage (p : State H σ ρ) : State H σ ρ :=
  if p.reproposeSubset then eraseSettled cfg p (indirectQuorum cfg p) else p

/-- What one rejection adds to the weights of a request. -/
def addResponse (remote : DelegateId) (rejects : Bool) (w : Weights DelegateId) :
    Weights DelegateId :=
  if rejects then { w with
    rejectVote := w.rejectVote + (cfg.weights remote).voteWeight
    rejectStake := w.rejectStake + (cfg.weights remote).stakeWeight }
  else { w with
    indirectVoteSupport := w.indirectVoteSupport + (cfg.weights remote).voteWeight
    indirectStakeSupport := w.indirectStakeSupport + (cfg.weights remote).stakeWeight
    supportingDelegates := insert remote w.supportingDelegates }

/-- `OnRejection`; a rejection map shorter than the batch is read past its end. -/
def onRejection (p : State H σ ρ) (remote : DelegateId) (message : RejectionMessage H σ) :
    Option (State H σ ρ) :=
  match message.reason with
  | .containsInvalidRequest =>
    let n := p.currentBatch.body.length
    if message.rejectionMap.length < n then none
    else
      let rejects i := message.rejectionMap.getD i false
      let p := { p with
        reproposeSubset := true
        responseWeights := fun i =>
          if i < n then addResponse cfg remote (rejects i) (p.responseWeights i)
          else p.responseWeights i }
      some (eraseSettled cfg p fun i =>
        if rejects i then
          cfg.rejected (p.responseWeights i).rejectVote (p.responseWeights i).rejectStake
        else indirectQuorum cfg p i)
  | .newEpoch =>
    some { p with
      neRejectVote := p.neRejectVote + (cfg.weights remote).voteWeight
      neRejectStake := p.neRejectStake + (cfg.weights remote).stakeWeight }
  | _ => some p

def isPrePrepareRejected (p : State H σ ρ) : Bool :=
  decide (p.hashes = ∅) && p.reproposeSubset || cfg.rejected p.neRejectVote p.neRejectStake

/-- The queue entries for the subsets: each subset's requests and a delimiter. -/
def subsetEntries (batch : List ρ) (subsets : List (SupportMap DelegateId)) : List (Option ρ) :=
  subsets.flatMap fun subset =>
    ((cfg.indexOrder subset.2).filterMap fun i => batch[i]?).map some ++ [none]

/-- `OnPrePrepareRejected`; a rejection for a new epoch is left to the epoch manager. -/
def onPrePrepareRejected (p : State H σ ρ) (env : Surroundings ρ) :
    Option (State H σ ρ × List (Output H σ ρ)) :=
  if p.state ≠ .prePrepare then none
  else if cfg.rejected p.neRejectVote p.neRejectStake then
    some ({ p with neRejectVote := 0,neRejectStake := 0 },[])
  else
    match generateSubsets p.prepareVote p.prepareStake p.currentBatch.body.length
        p.responseWeights cfg.thresholds.reachedQuorum with
    | none => none
    | some subsets =>
      let entries := subsetEntries cfg p.currentBatch.body subsets
      let requests := if entries.isEmpty then [none] else entries
      match prePreparePopFront cfg p env with
      | none => none
      | some p =>
        initiateConsensus cfg
          (advanceState cfg { p with requestQueue := requests ++ p.requestQueue } .void) true env

def getHashSigned (p : State H σ ρ) : Message H σ → H
  | .prepare _ => p.prePrepareHash
  | .commit _ => p.postPrepareHash
  | .rejection m => cfg.rejectionHash m

def tally (p : State H σ ρ) (remote : DelegateId) : Message H σ → Option (State H σ ρ)
  | .prepare m =>
    some (tallyPrepareMessage cfg (tallyStandardPhaseMessage cfg p remote m.signature))
  | .commit m => some (tallyStandardPhaseMessage cfg p remote m.signature)
  | .rejection m => onRejection cfg p remote m

def aggregateSignature (signatures : DelegateId → Option σ) : AggSignature σ where
  map := Finset.univ.filter fun i => (signatures i).isSome
  sig := cfg.aggregate signatures

inductive ProceedAction
  | approved | rejected | doNothing

/-- Add the own signature and aggregate; fails outside the two phases. -/
def aggregateOwn (p : State H σ ρ) : ConsensusState → Option (State H σ ρ)
  | .prePrepare =>
    let signatures := Function.update p.signatures cfg.delegateId (some p.prePrepareSig)
    some { p with signatures,postPrepareSig := aggregateSignature cfg signatures }
  | .postPrepare =>
    let signatures :=
      Function.update p.signatures cfg.delegateId (some (cfg.sign p.postPrepareHash))
    some { p with signatures,postCommitSig := aggregateSignature cfg signatures }
  | _ => none

def proceedWithMessage (p : State H σ ρ) (message : Message H σ) (expected : ConsensusState)
    (remote : DelegateId) : Option (ProceedAction × State H σ ρ × List (Output H σ ρ)) :=
  if p.stateChanging then some (.doNothing,p,[])
  else if p.state ≠ expected ∨ message.preprepareHash ≠ p.prePrepareHash then
    some (.doNothing,p,[])
  else if !cfg.verify remote (getHashSigned cfg p message) message.signature then
    some (.doNothing,p,[])
  else
    match tally cfg p remote message with
    | none => none
    | some p =>
      let trace := [.tallied remote message]
      if !message.isRejection && cfg.thresholds.reachedQuorum p.prepareVote p.prepareStake then
        (aggregateOwn cfg p expected).map fun p =>
          (.approved,{ p with stateChanging := true },trace)
      else if !message.isCommit && isPrePrepareRejected cfg p then
        some (.rejected,{ p with stateChanging := true },trace)
      else some (.doNothing,p,trace)

def sendPostPrepare (p : State H σ ρ) : State H σ ρ × List (Output H σ ρ) :=
  let response : PostPhaseMessage H σ := ⟨p.prePrepareHash,p.postPrepareSig⟩
  let postPrepareHash := cfg.hashing.computeHash response.preprepareHash response.signature
  (advanceState cfg { p with postPrepareHash } .postPrepare,
    [.postPrepare p.currentBatch.sequence response])

def sendPostCommit (p : State H σ ρ) (env : Surroundings ρ) :
    Option (State H σ ρ × List (Output H σ ρ)) :=
  (onConsensusReached cfg (advanceState cfg p .postCommit) env).map fun r =>
    (r.1,.postCommit ⟨p.prePrepareHash,p.postCommitSig⟩ :: r.2)

def expectedState : Message H σ → ConsensusState
  | .commit _ => .postPrepare
  | _ => .prePrepare

def processMessage (p : State H σ ρ) (message : Message H σ) (remote : DelegateId)
    (env : Surroundings ρ) : Option (State H σ ρ × List (Output H σ ρ)) :=
  match proceedWithMessage cfg p message (expectedState message) remote with
  | none => none
  | some (.doNothing,p,trace) => some (p,trace)
  | some (.rejected,p,trace) => (onPrePrepareRejected cfg p env).map fun r => (r.1,trace ++ r.2)
  | some (.approved,p,trace) =>
    match message with
    | .prepare _ => some ((sendPostPrepare cfg p).1,trace ++ (sendPostPrepare cfg p).2)
    | .commit _ => (sendPostCommit cfg p env).map fun r => (r.1,trace ++ r.2)
    | .rejection _ => some (p,trace)

/-- `StartConsensus`, which runs once: its timer proposes an empty batch. -/
def startConsensus (p : State H σ ρ) (transitioning : Bool) (env : Surroundings ρ) :
    Option (State H σ ρ × List (Output H σ ρ)) :=
  if p.state ≠ .initializing then some (p,[])
  else if transitioning then some ({ p with state := .void },[])
  else initiateConsensus cfg { p with
    requestQueue := p.requestQueue ++ [none]
    state := .void
    ongoing := true } false env

def step (p : State H σ ρ) : Event H σ ρ → Option (State H σ ρ × List (Output H σ ρ))
  | .message remote message env => processMessage cfg p message remote env
  | .prePrepareTimeout env => onTimeout cfg p .prePrepare env
  | .postPrepareTimeout env => onTimeout cfg p .postPrepare env
  | .messageQueued env => if p.state = .initializing then some (p,[]) else onMessageQueued cfg p env
  | .start transitioning env => startConsensus cfg p transitioning env

/-- A request manager right after its construction, with the tip it read from the store. -/
def init (tip : H) (sequence : BitVec 32) : State H σ ρ where
  state := .initializing
  stateChanging := false
  ongoing := false
  prevPrePrepareHash := tip
  prePrepareHash := 0
  postPrepareHash := 0
  prePrepareSig := default
  postPrepareSig := ⟨∅,default⟩
  postCommitSig := ⟨∅,default⟩
  prepareVote := 0
  prepareStake := 0
  signatures := fun _ => none
  responseWeights := fun _ => {}
  hashes := ∅
  reproposeSubset := false
  neRejectVote := 0
  neRejectStake := 0
  sequence := sequence
  currentBatch := emptyPrePrepare 0
  requestQueue := []

end Handlers

section Effects

variable {H σ ρ : Type} [DecidableEq H] [Zero H] [Inhabited σ] {cfg : Config H σ ρ}
variable {p q : State H σ ρ}

def State.signers (p : State H σ ρ) : ParticipationMap :=
  Finset.univ.filter fun i => (p.signatures i).isSome

structure Fresh (cfg : Config H σ ρ) (p : State H σ ρ) : Prop where
  prepareVote : p.prepareVote = cfg.thresholds.myVote
  prepareStake : p.prepareStake = cfg.thresholds.myStake
  stateChanging : p.stateChanging = false
  signers : p.signers = ∅
  responseWeights : p.responseWeights = fun _ => {}

/-- The header that `ConstructBatch` writes. -/
structure HeadedBy (cfg : Config H σ ρ) (p : State H σ ρ) (b : PrePrepare H σ ρ) : Prop where
  primaryDelegate : b.primaryDelegate = BitVec.ofNat 8 cfg.delegateId.val
  epochNumber : b.epochNumber = cfg.epochNumber
  sequence : b.sequence = p.sequence
  previous : b.previous = p.prevPrePrepareHash

/-- What `InitiateConsensus` does to `p`: it sends `b`, again when it is re-proposed whole. -/
structure Proposed (cfg : Config H σ ρ) (p : State H σ ρ) (reproposing : Bool) (q : State H σ ρ)
    (b : PrePrepare H σ ρ) : Prop where
  state : q.state = .prePrepare
  fresh : Fresh cfg q
  neRejectVote : q.neRejectVote = 0
  neRejectStake : q.neRejectStake = 0
  reproposeSubset : q.reproposeSubset = false
  ongoing : q.ongoing = p.ongoing
  sequence : q.sequence = p.sequence
  prevPrePrepareHash : q.prevPrePrepareHash = p.prevPrePrepareHash
  currentBatch : q.currentBatch = b
  prePrepareHash : q.prePrepareHash = cfg.hash b
  prePrepareSig : q.prePrepareSig = cfg.sign (cfg.hash b)
  delegatesEpochNumber : b.delegatesEpochNumber = cfg.epochNumber
  preprepareSig : b.preprepareSig = cfg.sign (cfg.hash b)
  again : reproposing = true → p.reproposeSubset = false →
    p.currentBatch.delegatesEpochNumber = cfg.epochNumber →
    b = { p.currentBatch with preprepareSig := b.preprepareSig }
  anew : reproposing = false ∨ p.reproposeSubset = true → HeadedBy cfg p b

theorem advanceState_fresh (p : State H σ ρ) (s : ConsensusState) :
    Fresh cfg (advanceState cfg p s) where
  prepareVote := rfl
  prepareStake := rfl
  stateChanging := rfl
  signers := by simp [State.signers,advanceState]
  responseWeights := rfl

variable {d : DelegateId} {env : Surroundings ρ} {o : List (Output H σ ρ)}

theorem prePrepareGetNext_some {reproposing : Bool}
    (h : prePrepareGetNext cfg p reproposing env = some q) :
    q.neRejectVote = 0 ∧ q.neRejectStake = 0 ∧ q.reproposeSubset = false ∧
      q.ongoing = p.ongoing ∧ q.sequence = p.sequence ∧
      q.prevPrePrepareHash = p.prevPrePrepareHash ∧
      ((reproposing = true ∧ p.reproposeSubset = false ∧ q.currentBatch = p.currentBatch) ∨
        ((reproposing = false ∨ p.reproposeSubset = true) ∧ HeadedBy cfg p q.currentBatch)) := by
  simp only [prePrepareGetNext] at h
  by_cases hagain : (reproposing && !p.reproposeSubset) = true
  · rw [if_pos hagain] at h
    cases h
    simp only [Bool.and_eq_true,Bool.not_eq_true'] at hagain
    exact ⟨rfl,rfl,hagain.2,rfl,rfl,rfl,.inl ⟨hagain.1,hagain.2,rfl⟩⟩
  · rw [if_neg hagain] at h
    have hnew : reproposing = false ∨ p.reproposeSubset = true := by
      cases reproposing <;> simp_all
    simp only [constructBatch] at h
    split at h
    · cases h
    · cases h
      exact ⟨rfl,rfl,rfl,rfl,rfl,rfl,.inr ⟨hnew,rfl,rfl,rfl,rfl⟩⟩

theorem initiateConsensus_some {reproposing : Bool}
    (h : initiateConsensus cfg p reproposing env = some (q,o)) :
    ∃ b,o = [.prePrepare b] ∧ Proposed cfg p reproposing q b := by
  simp only [initiateConsensus] at h
  split at h
  · cases h
  · next p1 hnext =>
    obtain ⟨hnv,hns,hflag,hongoing,hseq,hprev,hbatch⟩ := prePrepareGetNext_some hnext
    cases h
    refine ⟨_,rfl,⟨rfl,advanceState_fresh _ _,hnv,hns,hflag,hongoing,hseq,hprev,rfl,rfl,rfl,rfl,rfl,
      ?_,?_⟩⟩
    · intro hre hsub hepoch
      rcases hbatch with ⟨-,-,hsame⟩ | ⟨hnew,-⟩
      · rw [hsame,← hepoch]
      · rcases hnew with hnew | hnew
        · simp [hre] at hnew
        · simp [hsub] at hnew
    · intro hnew
      rcases hbatch with ⟨hre,hsub,-⟩ | ⟨-,hheaded⟩
      · rcases hnew with hnew | hnew
        · simp [hre] at hnew
        · simp [hsub] at hnew
      · exact ⟨hheaded.primaryDelegate,hheaded.epochNumber,hheaded.sequence,hheaded.previous⟩

/-- The message passes the checks of `ProceedWithMessage`, and `q` is the tally with it. -/
structure Counted (cfg : Config H σ ρ) (p : State H σ ρ) (remote : DelegateId)
    (message : Message H σ) (q : State H σ ρ) : Prop where
  state : p.state = expectedState message
  stateChanging : p.stateChanging = false
  preprepareHash : message.preprepareHash = p.prePrepareHash
  verified : cfg.verify remote (getHashSigned cfg p message) message.signature = true
  tally : tally cfg p remote message = some q

variable (cfg) in
theorem tallyStandardPhaseMessage_frame (p : State H σ ρ) (d : DelegateId) (sig : σ) :
    ∃ vote stake signatures,tallyStandardPhaseMessage cfg p d sig =
      { p with prepareVote := vote,prepareStake := stake,signatures } := by
  simp only [tallyStandardPhaseMessage]
  split_ifs
  · exact ⟨p.prepareVote,p.prepareStake,p.signatures,rfl⟩
  · exact ⟨_,_,_,rfl⟩

variable (cfg) in
theorem tallyPrepareMessage_frame (p : State H σ ρ) :
    ∃ hashes,tallyPrepareMessage cfg p = { p with hashes } := by
  simp only [tallyPrepareMessage]
  split_ifs
  · exact ⟨_,rfl⟩
  · exact ⟨p.hashes,rfl⟩

theorem onRejection_frame {m : RejectionMessage H σ} (h : onRejection cfg p d m = some q) :
    (∃ flag weights hashes vote stake,q = { p with
      reproposeSubset := flag,responseWeights := weights,hashes := hashes,
      neRejectVote := vote,neRejectStake := stake }) ∧
    (m.reason ≠ .containsInvalidRequest → q.reproposeSubset = p.reproposeSubset) := by
  simp only [onRejection] at h
  split at h
  · next hreason =>
    split_ifs at h
    cases h
    exact ⟨⟨_,_,_,_,_,rfl⟩,fun hne => absurd hreason hne⟩
  · cases h
    exact ⟨⟨_,_,_,_,_,rfl⟩,fun _ => rfl⟩
  · cases h
    exact ⟨⟨_,_,_,_,_,rfl⟩,fun _ => rfl⟩

/-- What counting a message leaves alone. -/
structure SameRound (m : Message H σ) (p q : State H σ ρ) : Prop where
  state : q.state = p.state
  stateChanging : q.stateChanging = p.stateChanging
  ongoing : q.ongoing = p.ongoing
  sequence : q.sequence = p.sequence
  prevPrePrepareHash : q.prevPrePrepareHash = p.prevPrePrepareHash
  currentBatch : q.currentBatch = p.currentBatch
  requestQueue : q.requestQueue = p.requestQueue
  prePrepareHash : q.prePrepareHash = p.prePrepareHash
  reproposeSubset : q.reproposeSubset = p.reproposeSubset ∨
    ∃ r,m = .rejection r ∧ r.reason = .containsInvalidRequest

theorem Counted.sameRound {m : Message H σ} (h : Counted cfg p d m q) : SameRound m p q := by
  cases m with
  | prepare m =>
    obtain ⟨hashes,hprepare⟩ := tallyPrepareMessage_frame cfg
      (tallyStandardPhaseMessage cfg p d m.signature)
    obtain ⟨vote,stake,signatures,hstandard⟩ := tallyStandardPhaseMessage_frame cfg p d m.signature
    rw [(some.inj h.tally).symm.trans hprepare,hstandard]
    exact ⟨rfl,rfl,rfl,rfl,rfl,rfl,rfl,rfl,.inl rfl⟩
  | commit m =>
    obtain ⟨vote,stake,signatures,hstandard⟩ := tallyStandardPhaseMessage_frame cfg p d m.signature
    rw [(some.inj h.tally).symm.trans hstandard]
    exact ⟨rfl,rfl,rfl,rfl,rfl,rfl,rfl,rfl,.inl rfl⟩
  | rejection m =>
    obtain ⟨⟨flag,weights,hashes,vote,stake,hframe⟩,hflag⟩ := onRejection_frame h.tally
    have hask : q.reproposeSubset = p.reproposeSubset ∨
        ∃ r,Message.rejection m = .rejection r ∧ r.reason = .containsInvalidRequest := by
      by_cases hreason : m.reason = .containsInvalidRequest
      · exact .inr ⟨m,rfl,hreason⟩
      · exact .inl (hflag hreason)
    subst hframe
    exact ⟨rfl,rfl,rfl,rfl,rfl,rfl,rfl,rfl,hask⟩

/-- What `BeginNextRound` leaves after a commit: an idle primary, or a new proposal. -/
inductive NextRound (cfg : Config H σ ρ) (p q : State H σ ρ) : List (Output H σ ρ) → Prop
  | idle (state : q.state = .postCommit) (fresh : Fresh cfg q) (ongoing : q.ongoing = false)
    (neRejectVote : q.neRejectVote = p.neRejectVote)
    (neRejectStake : q.neRejectStake = p.neRejectStake)
    (reproposeSubset : q.reproposeSubset = p.reproposeSubset) : NextRound cfg p q []
  | propose {p1 : State H σ ρ} {b : PrePrepare H σ ρ} (ongoing : p1.ongoing = true)
    (proposed : Proposed cfg p1 false q b) : NextRound cfg p q [.prePrepare b]

/-- Everything a step of the primary can do. -/
inductive Effect (cfg : Config H σ ρ) (p : State H σ ρ) :
    Event H σ ρ → State H σ ρ → List (Output H σ ρ) → Prop
  | ignore {e : Event H σ ρ} : Effect cfg p e p []
  | await {env : Surroundings ρ} (state : p.state = .initializing) :
    Effect cfg p (.start true env) { p with state := .void } []
  | count {remote : DelegateId} {m : Message H σ} {env : Surroundings ρ} {q : State H σ ρ}
    (counted : Counted cfg p remote m q) :
    Effect cfg p (.message remote m env) q [.tallied remote m]
  | postPrepare {remote : DelegateId} {m : StandardPhaseMessage H σ} {env : Surroundings ρ}
    {p1 p2 : State H σ ρ} (counted : Counted cfg p remote (.prepare m) p1)
    (quorum : cfg.thresholds.reachedQuorum p1.prepareVote p1.prepareStake = true)
    (own : aggregateOwn cfg p1 .prePrepare = some p2) :
    Effect cfg p (.message remote (.prepare m) env)
      (sendPostPrepare cfg { p2 with stateChanging := true }).1
      [.tallied remote (.prepare m),
        .postPrepare p2.currentBatch.sequence ⟨p2.prePrepareHash,p2.postPrepareSig⟩]
  | postCommit {remote : DelegateId} {m : StandardPhaseMessage H σ} {env : Surroundings ρ}
    {p1 p2 q : State H σ ρ} {block : PostCommittedBlock H σ (List ρ)} {o : List (Output H σ ρ)}
    (counted : Counted cfg p remote (.commit m) p1)
    (quorum : cfg.thresholds.reachedQuorum p1.prepareVote p1.prepareStake = true)
    (own : aggregateOwn cfg p1 .postPrepare = some p2) (next : NextRound cfg p2 q o) :
    Effect cfg p (.message remote (.commit m) env) q
      (.tallied remote (.commit m) :: .postCommit ⟨p2.prePrepareHash,p2.postCommitSig⟩ ::
        .store block :: o)
  | yield {remote : DelegateId} {m : Message H σ} {env : Surroundings ρ} {p1 q : State H σ ρ}
    (counted : Counted cfg p remote m p1)
    (left : q = { p1 with stateChanging := true,neRejectVote := 0,neRejectStake := 0 }) :
    Effect cfg p (.message remote m env) q [.tallied remote m]
  | subset {remote : DelegateId} {m : Message H σ} {env : Surroundings ρ}
    {p1 p2 q : State H σ ρ} {b : PrePrepare H σ ρ} (counted : Counted cfg p remote m p1)
    (rejected : p1.reproposeSubset = true) (reproposeSubset : p2.reproposeSubset = true)
    (ongoing : p2.ongoing = p1.ongoing) (sequence : p2.sequence = p1.sequence)
    (prevPrePrepareHash : p2.prevPrePrepareHash = p1.prevPrePrepareHash)
    (proposed : Proposed cfg p2 true q b) :
    Effect cfg p (.message remote m env) q [.tallied remote m,.prePrepare b]
  | repropose {e : Event H σ ρ} {q : State H σ ρ} {b : PrePrepare H σ ρ}
    (state : p.state = .prePrepare ∨ p.state = .postPrepare)
    (proposed : Proposed cfg (advanceState cfg p .void) true q b) :
    Effect cfg p e q [.prePrepare b]
  | propose {e : Event H σ ρ} {p1 q : State H σ ρ} {b : PrePrepare H σ ρ}
    (idle : p.ongoing = false ∨ p.state = .initializing) (ongoing : p1.ongoing = true)
    (proposed : Proposed cfg p1 false q b) : Effect cfg p e q [.prePrepare b]

theorem onMessageQueued_some (h : onMessageQueued cfg p env = some (q,o)) :
    (q = p ∧ o = []) ∨ p.ongoing = false ∧ ∃ b,o = [.prePrepare b] ∧
        Proposed cfg { p with ongoing := true } false q b := by
  simp only [onMessageQueued] at h
  split_ifs at h with hidle
  · cases h
    exact .inl ⟨rfl,rfl⟩
  · simp only [Bool.or_eq_true,not_or,Bool.not_eq_true] at hidle
    exact .inr ⟨hidle.1,initiateConsensus_some h⟩

theorem onTimeout_effect {e : Event H σ ρ} {expected : ConsensusState}
    (hexpected : expected = .prePrepare ∨ expected = .postPrepare)
    (h : onTimeout cfg p expected env = some (q,o)) : Effect cfg p e q o := by
  simp only [onTimeout,onQuorumFailed] at h
  split_ifs at h with hstate hproceed
  · cases h
    exact .ignore
  · obtain ⟨b,rfl,hproposed⟩ := initiateConsensus_some h
    rw [not_not] at hstate
    exact .repropose (by rwa [hstate]) hproposed
  · cases h
    exact .ignore

theorem startConsensus_effect {transitioning : Bool}
    (h : startConsensus cfg p transitioning env = some (q,o)) :
    Effect cfg p (.start transitioning env) q o := by
  simp only [startConsensus] at h
  split_ifs at h with hstate htransition
  · cases h
    exact .ignore
  · cases h
    subst htransition
    exact .await (not_not.mp hstate)
  · obtain ⟨b,rfl,hproposed⟩ := initiateConsensus_some h
    exact .propose (.inr (not_not.mp hstate)) rfl hproposed

/-- A message that passes the checks is tallied. -/
theorem Counted.proceedWithMessage {m : Message H σ} (h : Counted cfg p d m q) :
    proceedWithMessage cfg p m (expectedState m) d =
      if !m.isRejection && cfg.thresholds.reachedQuorum q.prepareVote q.prepareStake then
        (aggregateOwn cfg q (expectedState m)).map fun r =>
          (.approved,{ r with stateChanging := true },[.tallied d m])
      else if !m.isCommit && isPrePrepareRejected cfg q then
        some (.rejected,{ q with stateChanging := true },[.tallied d m])
      else some (.doNothing,q,[.tallied d m]) := by
  have hexpected : ¬(p.state ≠ expectedState m ∨ m.preprepareHash ≠ p.prePrepareHash) := by
    simp [h.state,h.preprepareHash]
  simp only [Primary.proceedWithMessage,h.stateChanging,hexpected,h.verified,h.tally,if_false,
    Bool.false_eq_true,Bool.not_true]

theorem Counted.postPrepare {m : StandardPhaseMessage H σ} {r : State H σ ρ}
    (h : Counted cfg p d (.prepare m) q) (env : Surroundings ρ)
    (hquorum : cfg.thresholds.reachedQuorum q.prepareVote q.prepareStake = true)
    (hown : aggregateOwn cfg q .prePrepare = some r) :
    processMessage cfg p (.prepare m) d env =
      some ((sendPostPrepare cfg { r with stateChanging := true }).1,
        .tallied d (.prepare m) :: (sendPostPrepare cfg { r with stateChanging := true }).2) := by
  have hproceed := h.proceedWithMessage
  simp only [Message.isRejection,hquorum,expectedState,hown,Bool.not_false,Bool.and_self,if_true,
    map_some] at hproceed
  simp only [processMessage,expectedState,hproceed]
  rfl

theorem Counted.postCommit {m : StandardPhaseMessage H σ} {r : State H σ ρ}
    (h : Counted cfg p d (.commit m) q) (env : Surroundings ρ)
    (hquorum : cfg.thresholds.reachedQuorum q.prepareVote q.prepareStake = true)
    (hown : aggregateOwn cfg q .postPrepare = some r) :
    processMessage cfg p (.commit m) d env =
      (sendPostCommit cfg { r with stateChanging := true } env).map fun x =>
        (x.1,.tallied d (.commit m) :: x.2) := by
  have hproceed := h.proceedWithMessage
  simp only [Message.isRejection,hquorum,expectedState,hown,Bool.not_false,Bool.and_self,if_true,
    map_some] at hproceed
  simp only [processMessage,expectedState,hproceed]
  rfl

theorem processMessage_of_state_ne {m : Message H σ} (env : Surroundings ρ)
    (h : p.state ≠ expectedState m) : processMessage cfg p m d env = some (p,[]) := by
  have hproceed : proceedWithMessage cfg p m (expectedState m) d = some (.doNothing,p,[]) := by
    simp only [proceedWithMessage]
    split_ifs with hchanging hexpected
    · rfl
    · rfl
    · exact absurd (.inl h) hexpected
    · exact absurd (.inl h) hexpected
  simp only [processMessage,hproceed]

theorem proceedWithMessage_some {remote : DelegateId} {m : Message H σ} {action : ProceedAction}
    (h : proceedWithMessage cfg p m (expectedState m) remote = some (action,q,o)) :
    (action = .doNothing ∧ q = p ∧ o = []) ∨
      ∃ p1,Counted cfg p remote m p1 ∧ o = [.tallied remote m] ∧ match action with
        | .doNothing => q = p1
        | .rejected => isPrePrepareRejected cfg p1 = true ∧ q = { p1 with stateChanging := true }
        | .approved => m.isRejection = false ∧
            cfg.thresholds.reachedQuorum p1.prepareVote p1.prepareStake = true ∧
            ∃ p2,aggregateOwn cfg p1 (expectedState m) = some p2 ∧
              q = { p2 with stateChanging := true } := by
  simp only [proceedWithMessage] at h
  by_cases hchanging : p.stateChanging = true
  · rw [if_pos hchanging] at h
    cases h
    exact .inl ⟨rfl,rfl,rfl⟩
  rw [if_neg hchanging] at h
  by_cases hexpected : p.state ≠ expectedState m ∨ m.preprepareHash ≠ p.prePrepareHash
  · rw [if_pos hexpected] at h
    cases h
    exact .inl ⟨rfl,rfl,rfl⟩
  rw [if_neg hexpected] at h
  by_cases hverify : (!cfg.verify remote (getHashSigned cfg p m) m.signature) = true
  · rw [if_pos hverify] at h
    cases h
    exact .inl ⟨rfl,rfl,rfl⟩
  rw [if_neg hverify] at h
  push Not at hexpected
  split at h
  · cases h
  · next p1 htally =>
    have hcounted : Counted cfg p remote m p1 :=
      ⟨hexpected.1,by simpa using hchanging,hexpected.2,by simpa using hverify,htally⟩
    refine .inr ⟨p1,hcounted,?_⟩
    split_ifs at h with hquorum hrejected
    · obtain ⟨p2,hown,heq⟩ := map_eq_some_iff.mp h
      cases heq
      simp only [Bool.and_eq_true,Bool.not_eq_true'] at hquorum
      exact ⟨rfl,hquorum.1,hquorum.2,p2,hown,rfl⟩
    · cases h
      simp only [Bool.and_eq_true] at hrejected
      exact ⟨rfl,hrejected.2,rfl⟩
    · cases h
      exact ⟨rfl,rfl⟩

theorem prePreparePopFront_some (h : prePreparePopFront cfg p env = some q) :
    q = { p with requestQueue := q.requestQueue,currentBatch := emptyPrePrepare env.now } := by
  obtain ⟨queue,-,rfl⟩ := map_eq_some_iff.mp h
  rfl

theorem onPrePrepareRejected_some (hrejected : isPrePrepareRejected cfg p = true)
    (h : onPrePrepareRejected cfg p env = some (q,o)) :
    (q = { p with neRejectVote := 0,neRejectStake := 0 } ∧ o = []) ∨
      p.reproposeSubset = true ∧ ∃ p2 b,p2.reproposeSubset = true ∧
        p2.ongoing = p.ongoing ∧ p2.sequence = p.sequence ∧
        p2.prevPrePrepareHash = p.prevPrePrepareHash ∧ o = [.prePrepare b] ∧
        Proposed cfg p2 true q b := by
  simp only [onPrePrepareRejected] at h
  split_ifs at h with hstate hepoch
  · cases h
    exact .inl ⟨rfl,rfl⟩
  have hsub : p.reproposeSubset = true := by
    simp only [isPrePrepareRejected,Bool.or_eq_true,Bool.and_eq_true] at hrejected
    rcases hrejected with hsub | hne
    · exact hsub.2
    · exact absurd hne hepoch
  split at h
  · cases h
  · split at h
    · cases h
    · next p1 hpop =>
      obtain ⟨b,rfl,hproposed⟩ := initiateConsensus_some h
      have hp1 := prePreparePopFront_some hpop
      refine .inr ⟨hsub,_,b,?_,?_,?_,?_,rfl,hproposed⟩
      · rw [hp1]
        exact hsub
      · rw [hp1]
        rfl
      · rw [hp1]
        rfl
      · rw [hp1]
        rfl

theorem sendPostCommit_some (h : sendPostCommit cfg p env = some (q,o)) :
    ∃ block o',o = .postCommit ⟨p.prePrepareHash,p.postCommitSig⟩ :: .store block :: o' ∧
      NextRound cfg p q o' := by
  obtain ⟨r,hreached,heq⟩ := map_eq_some_iff.mp h
  cases heq
  obtain ⟨r',hnext,heq⟩ := map_eq_some_iff.mp hreached
  cases heq
  refine ⟨_,r'.2,rfl,?_⟩
  simp only [beginNextRound] at hnext
  split at hnext
  · cases hnext
  · next p1 hpop =>
    have hp1 := prePreparePopFront_some hpop
    rcases onMessageQueued_some hnext with ⟨hq,ho⟩ | ⟨-,b,ho,hproposed⟩
    · rw [ho,hq,hp1]
      exact .idle rfl ⟨rfl,rfl,rfl,by simp [State.signers,advanceState],rfl⟩ rfl rfl rfl rfl
    · rw [ho]
      exact .propose rfl hproposed

theorem processMessage_effect {remote : DelegateId} {m : Message H σ}
    (h : processMessage cfg p m remote env = some (q,o)) :
    Effect cfg p (.message remote m env) q o := by
  simp only [processMessage] at h
  split at h
  · cases h
  · next p1 trace hproceed =>
    cases h
    rcases proceedWithMessage_some hproceed with ⟨-,rfl,rfl⟩ | ⟨p2,hcounted,rfl,rfl⟩
    · exact .ignore
    · exact .count hcounted
  · next p1 trace hproceed =>
    obtain ⟨⟨q',o'⟩,hreject,heq⟩ := map_eq_some_iff.mp h
    cases heq
    rcases proceedWithMessage_some hproceed with ⟨hne,-⟩ | ⟨p2,hcounted,rfl,hrejected,rfl⟩
    · cases hne
    have hrejected' : isPrePrepareRejected cfg { p2 with stateChanging := true } = true := hrejected
    rcases onPrePrepareRejected_some hrejected' hreject with ⟨rfl,rfl⟩ | ⟨hsub,p3,b,h1,h2,h3,h4,rfl,h5⟩
    · exact .yield hcounted rfl
    · exact .subset hcounted hsub h1 h2 h3 h4 h5
  · next p1 trace hproceed =>
    rcases proceedWithMessage_some hproceed with
      ⟨hne,-⟩ | ⟨p2,hcounted,rfl,hphase,hquorum,p3,hown,rfl⟩
    · cases hne
    cases m with
    | prepare m =>
      cases h
      exact .postPrepare hcounted hquorum hown
    | commit m =>
      obtain ⟨⟨q',o'⟩,hcommit,heq⟩ := map_eq_some_iff.mp h
      cases heq
      obtain ⟨block,o1,rfl,hnext⟩ := sendPostCommit_some hcommit
      have hnext' : NextRound cfg p3 q' o1 := by
        cases hnext with
        | idle h1 h2 h3 h4 h5 h6 => exact .idle h1 h2 h3 h4 h5 h6
        | propose h1 h2 => exact .propose h1 h2
      have heffect : Effect cfg p (.message remote (.commit m) env) q'
          (.tallied remote (.commit m) :: .postCommit ⟨p3.prePrepareHash,p3.postCommitSig⟩ ::
            .store block :: o1) := .postCommit hcounted hquorum hown hnext'
      exact heffect
    | rejection m => cases hphase

theorem step_effect {e : Event H σ ρ} (h : step cfg p e = some (q,o)) : Effect cfg p e q o := by
  cases e with
  | message remote m env => exact processMessage_effect h
  | prePrepareTimeout env => exact onTimeout_effect (.inl rfl) h
  | postPrepareTimeout env => exact onTimeout_effect (.inr rfl) h
  | messageQueued env =>
    simp only [step] at h
    split_ifs at h
    · cases h
      exact .ignore
    · rcases onMessageQueued_some h with ⟨rfl,rfl⟩ | ⟨hidle,b,rfl,hproposed⟩
      · exact .ignore
      · exact .propose (.inl hidle) rfl hproposed
  | start transitioning env => exact startConsensus_effect h

end Effects

end Primary
end LogosCore
