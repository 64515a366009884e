import LogosCore.PrimaryQueue

/-!
# Retrying a batch

A primary and honest backups of quorum weight, joined by a network that loses nothing once the
primary has proposed its batch again. A backup that already holds a post-prepare only answers the
retry if the Prepares that reach quorum first come from exactly the same delegates: the hash it has
signed covers the aggregate signature.
-/

namespace LogosCore.Retry

open Option Machine Quorum
open Backup (init onPostPrepare onPrePrepare step validateTimestamp)
open Primary (Message aggregateSignature)

variable {H σ ρ : Type} [DecidableEq H] [Zero H] [Inhabited σ]

/-- A primary and the backups that listen to it: same hashes and weights, and signatures that
verify. -/
structure Committee (H σ ρ : Type) [Zero H] where
  primary : Primary.Config H σ ρ
  backup : DelegateId → Backup.Config H σ ρ
  backupSign : DelegateId → H → σ
  remote : ∀ d,(backup d).remote = BitVec.ofNat 8 primary.delegateId.val
  expectedEpochNumber : ∀ d,(backup d).expectedEpochNumber = primary.epochNumber
  hashing : ∀ d,(backup d).hashing = primary.hashing
  thresholds : ∀ d,(backup d).thresholds = onCurrentEpochSet d primary.weights
  nonzeroHashes : ∀ d,(backup d).NonzeroHashes
  verify : ∀ d h,primary.verify d h (backupSign d h) = true
  verifyRemote : ∀ d h,(backup d).verifyRemote h (primary.sign h) = true
  verifyAggregate : ∀ d h signatures,(∀ i sig,signatures i = some sig →
      sig = if i = primary.delegateId then primary.sign h else backupSign i h) →
    (backup d).verifyAggregate h (aggregateSignature primary signatures) = true

section Exchange

variable (g : Committee H σ ρ)

/-- What a backup hears of the primary's outputs. -/
def heard (env : Backup.Surroundings) : Primary.Output H σ ρ → Option (Backup.Event H σ ρ)
  | .prePrepare m => some (.prePrepare m env)
  | .postPrepare _ m => some (.postPrepare m)
  | .postCommit m => some (.postCommit m)
  | _ => none

/-- What the primary hears of a backup's outputs. -/
def Committee.said (d : DelegateId) : Backup.Output H σ ρ → Option (Message H σ)
  | .prepare h _ => some (.prepare ⟨h,g.backupSign d h⟩)
  | .commit h signed => some (.commit ⟨h,g.backupSign d signed⟩)
  | .rejection h reason map =>
    let hash := g.primary.rejectionHash ⟨h,reason,map,default⟩
    some (.rejection ⟨h,reason,map,g.backupSign d hash⟩)
  | .store _ => none

/-- A backup hears everything the primary sent and answers; a backup that stops is silent. -/
def Committee.reply (d : DelegateId) (env : Backup.Surroundings) (b : Backup.State H σ ρ)
    (sent : List (Primary.Output H σ ρ)) : Backup.State H σ ρ × List (Message H σ) :=
  match exec (Backup.step (g.backup d)) b (sent.filterMap (heard env)) with
  | none => (b,[])
  | some r => (r.1,r.2.filterMap (g.said d))

/-- The answers of the backups reach the primary in the given order. -/
def deliver (env : Primary.Surroundings ρ) (order : List DelegateId)
    (answers : DelegateId → List (Message H σ)) : List (Primary.Event H σ ρ) :=
  order.flatMap fun d => (answers d).map fun m => .message d m env

structure Outcome (H σ ρ : Type) where
  proposed : List (Primary.Output H σ ρ)
  prepares : DelegateId → List (Message H σ)
  postPrepared : List (Primary.Output H σ ρ)
  commits : DelegateId → List (Message H σ)
  committed : List (Primary.Output H σ ρ)

def timeoutOf (p : Primary.State H σ ρ) (env : Primary.Surroundings ρ) : Primary.Event H σ ρ :=
  if p.state = .prePrepare then .prePrepareTimeout env else .postPrepareTimeout env

/-- A timeout and two exchanges without losses, with the orders in which answers arrive. -/
def Committee.retry (env : DelegateId → Backup.Surroundings) (penv : Primary.Surroundings ρ)
    (first second : List DelegateId) (p : Primary.State H σ ρ)
    (b : DelegateId → Backup.State H σ ρ) : Option (Outcome H σ ρ) :=
  match Primary.step g.primary p (timeoutOf p penv) with
  | none => none
  | some (p1,proposed) =>
    let prepared d := g.reply d (env d) (b d) proposed
    match exec (Primary.step g.primary) p1 (deliver penv first fun d => (prepared d).2) with
    | none => none
    | some (p2,postPrepared) =>
      let committing d := g.reply d (env d) (prepared d).1 postPrepared
      match exec (Primary.step g.primary) p2 (deliver penv second fun d => (committing d).2) with
      | none => none
      | some (_,committed) =>
        some ⟨proposed,fun d => (prepared d).2,postPrepared,fun d => (committing d).2,committed⟩

/-- Every backup answers with a Prepare and a Commit, both accepted, and the batch is committed. -/
def Committee.Completes (p : Primary.State H σ ρ) (backups : List DelegateId)
    (outcome : Outcome H σ ρ) : Prop :=
  (∀ d ∈ backups,outcome.prepares d =
    [.prepare ⟨p.prePrepareHash,g.backupSign d p.prePrepareHash⟩]) ∧
  (∃ s m,.postPrepare s m ∈ outcome.postPrepared ∧ ∀ d ∈ backups,outcome.commits d =
    [.commit ⟨p.prePrepareHash,g.backupSign d
      (g.primary.hashing.computeHash m.preprepareHash m.signature)⟩]) ∧
  ∃ block,.store block ∈ outcome.committed ∧
    g.primary.hash block.toConsensusBlock = p.prePrepareHash

end Exchange

section Counting

variable (g : Committee H σ ρ)

/-- Whether the primary and the delegates of `G` reach quorum. -/
def Committee.enough (G : Finset DelegateId) : Bool :=
  g.primary.thresholds.validateQuorum (insert g.primary.delegateId G)

def Committee.signaturesOn (signed : H) (G : Finset DelegateId) (i : DelegateId) : Option σ :=
  if i ∈ G then some (g.backupSign i signed) else none

/-- The aggregate of the own signature and those of `G`. -/
def Committee.aggregateOn (signed : H) (G : Finset DelegateId) : AggSignature σ :=
  aggregateSignature g.primary (Function.update (g.signaturesOn signed G) g.primary.delegateId
    (some (g.primary.sign signed)))

/-- A primary that has counted the answers of `G` in one phase of a round without rejections. -/
structure Waiting (phase : ConsensusState) (h signed : H) (batch : PrePrepare H σ ρ)
    (G : Finset DelegateId) (p : Primary.State H σ ρ) : Prop where
  state : p.state = phase
  stateChanging : p.stateChanging = false
  prePrepareHash : p.prePrepareHash = h
  prePrepareSig : p.prePrepareSig = g.primary.sign h
  postPrepareHash : phase = .postPrepare → p.postPrepareHash = signed
  signatures : p.signatures = g.signaturesOn signed G
  prepareVote : p.prepareVote = g.primary.thresholds.voteOf (insert g.primary.delegateId G)
  prepareStake : p.prepareStake = g.primary.thresholds.stakeOf (insert g.primary.delegateId G)
  reproposeSubset : p.reproposeSubset = false
  neRejectVote : p.neRejectVote = 0
  neRejectStake : p.neRejectStake = 0
  currentBatch : p.currentBatch = batch
  queue : Primary.RoundQueue p

variable {g} {phase : ConsensusState} {h signed : H} {batch : PrePrepare H σ ρ}
variable {G : Finset DelegateId} {p : Primary.State H σ ρ} {d : DelegateId}

theorem signaturesOn_insert (signed : H) (G : Finset DelegateId) (d : DelegateId) :
    Function.update (g.signaturesOn signed G) d (some (g.backupSign d signed)) =
      g.signaturesOn signed (insert d G) := by
  funext i
  by_cases hi : i = d
  · simp [hi,Committee.signaturesOn]
  · simp [hi,Committee.signaturesOn]

theorem myVote_eq : g.primary.thresholds.myVote =
    g.primary.thresholds.voteOf (insert g.primary.delegateId ∅) := by
  rw [Thresholds.voteOf,WeightedQuorum.maskedSum_insert _ (Finset.notMem_empty _),
    WeightedQuorum.maskedSum_empty,zero_add]
  rfl

theorem myStake_eq : g.primary.thresholds.myStake =
    g.primary.thresholds.stakeOf (insert g.primary.delegateId ∅) := by
  rw [Thresholds.stakeOf,WeightedQuorum.maskedSum_insert _ (Finset.notMem_empty _),
    WeightedQuorum.maskedSum_empty,zero_add]
  rfl

variable (hw : Waiting g phase h signed batch G p)
include hw

/-- Counting one more answer. -/
theorem Waiting.tally (hd : d ≠ g.primary.delegateId) (hG : d ∉ G) :
    Waiting g phase h signed batch (insert d G)
      (Primary.tallyStandardPhaseMessage g.primary p d (g.backupSign d signed)) := by
  have hnew : p.signatures d = none := by simp [hw.signatures,Committee.signaturesOn,hG]
  have hfresh : d ∉ insert g.primary.delegateId G := by
    rw [Finset.mem_insert,not_or]
    exact ⟨hd,hG⟩
  have hinsert : insert g.primary.delegateId (insert d G) =
      insert d (insert g.primary.delegateId G) := Finset.insert_comm _ _ _
  have htally : Primary.tallyStandardPhaseMessage g.primary p d (g.backupSign d signed) = { p with
        prepareVote := p.prepareVote + (g.primary.weights d).voteWeight
        prepareStake := p.prepareStake + (g.primary.weights d).stakeWeight
        signatures := Function.update p.signatures d (some (g.backupSign d signed)) } := by
    simp only [Primary.tallyStandardPhaseMessage,hnew,isSome_none,Bool.false_eq_true,if_false]
  rw [htally]
  refine ⟨hw.state,hw.stateChanging,hw.prePrepareHash,hw.prePrepareSig,hw.postPrepareHash,?_,?_,?_,
    hw.reproposeSubset,hw.neRejectVote,hw.neRejectStake,hw.currentBatch,hw.queue.congr rfl rfl⟩
  · rw [← signaturesOn_insert,← hw.signatures]
  · rw [hinsert,Thresholds.voteOf,WeightedQuorum.maskedSum_insert _ hfresh]
    exact congrArg (· + _) hw.prepareVote
  · rw [hinsert,Thresholds.stakeOf,WeightedQuorum.maskedSum_insert _ hfresh]
    exact congrArg (· + _) hw.prepareStake

theorem Waiting.reachedQuorum :
    g.primary.thresholds.reachedQuorum p.prepareVote p.prepareStake = g.enough G := by
  rw [hw.prepareVote,hw.prepareStake]
  rfl

/-- Without rejections a round is never given up. -/
theorem Waiting.not_rejected : Primary.isPrePrepareRejected g.primary p = false := by
  simp [Primary.isPrePrepareRejected,Primary.Config.rejected,hw.reproposeSubset,hw.neRejectVote,
    hw.neRejectStake]

omit hw

variable {penv : Primary.Surroundings ρ}

variable (g) in
def Committee.prepareOf (h : H) (d : DelegateId) : Message H σ := .prepare ⟨h,g.backupSign d h⟩

variable (g) in
def Committee.commitOf (h signed : H) (d : DelegateId) : Message H σ :=
  .commit ⟨h,g.backupSign d signed⟩

theorem Waiting.counted_prepare (hw : Waiting g .prePrepare h h batch G p)
    (hd : d ≠ g.primary.delegateId) (hG : d ∉ G) :
    ∃ q,Primary.Counted g.primary p d (g.prepareOf h d) q ∧
      Waiting g .prePrepare h h batch (insert d G) q := by
  have hw' := hw.tally hd hG
  refine ⟨_,⟨hw.state,hw.stateChanging,hw.prePrepareHash.symm,?_,?_⟩,hw'⟩
  · simp only [Committee.prepareOf,Primary.getHashSigned,hw.prePrepareHash]
    exact g.verify d h
  · simp only [Committee.prepareOf,Primary.tally,Primary.tallyPrepareMessage,hw'.reproposeSubset,
      Bool.false_eq_true,if_false]

theorem Waiting.counted_commit (hw : Waiting g .postPrepare h signed batch G p)
    (hd : d ≠ g.primary.delegateId) (hG : d ∉ G) :
    ∃ q,Primary.Counted g.primary p d (g.commitOf h signed d) q ∧
      Waiting g .postPrepare h signed batch (insert d G) q := by
  refine ⟨_,⟨hw.state,hw.stateChanging,hw.prePrepareHash.symm,?_,rfl⟩,hw.tally hd hG⟩
  simp only [Committee.commitOf,Primary.getHashSigned,hw.postPrepareHash rfl]
  exact g.verify d signed

/-- A Prepare short of quorum is only counted. -/
theorem Waiting.prepare_wait (hw : Waiting g .prePrepare h h batch G p)
    (hd : d ≠ g.primary.delegateId) (hG : d ∉ G) (hno : g.enough (insert d G) = false) :
    ∃ q o,Primary.step g.primary p (.message d (g.prepareOf h d) penv) = some (q,o) ∧
      Waiting g .prePrepare h h batch (insert d G) q ∧ ∀ x ∈ o,∃ d m,x = .tallied d m := by
  obtain ⟨q,hcounted,hw'⟩ := hw.counted_prepare hd hG
  have hproceed := hcounted.proceedWithMessage
  rw [hw'.reachedQuorum,hno,hw'.not_rejected] at hproceed
  simp only [Bool.and_false,Bool.false_eq_true,if_false] at hproceed
  refine ⟨q,[.tallied d (g.prepareOf h d)],?_,hw',by simp⟩
  simp only [Primary.step,Primary.processMessage,hproceed]

/-- What the primary has done when the Prepares of `G` reach quorum. -/
structure PostPrepared (g : Committee H σ ρ) (h : H) (batch : PrePrepare H σ ρ)
    (G : Finset DelegateId) (p : Primary.State H σ ρ) (o : List (Primary.Output H σ ρ)) :
    Prop where
  waiting : Waiting g .postPrepare h
    (g.primary.hashing.computeHash h (g.aggregateOn h G)) batch ∅ p
  enough : g.enough G = true
  sent : ∃ d m,o = [.tallied d m,.postPrepare batch.sequence ⟨h,g.aggregateOn h G⟩]

theorem Waiting.prepare_done (hw : Waiting g .prePrepare h h batch G p)
    (hd : d ≠ g.primary.delegateId) (hG : d ∉ G) (hyes : g.enough (insert d G) = true) :
    ∃ q o,Primary.step g.primary p (.message d (g.prepareOf h d) penv) = some (q,o) ∧
      PostPrepared g h batch (insert d G) q o := by
  obtain ⟨q,hcounted,hw'⟩ := hw.counted_prepare hd hG
  obtain ⟨r,hown⟩ : ∃ r,Primary.aggregateOwn g.primary q .prePrepare = some r := ⟨_,rfl⟩
  have hstep := hcounted.postPrepare penv (hw'.reachedQuorum.trans hyes) hown
  have hsig : r.postPrepareSig = g.aggregateOn h (insert d G) := by
    cases hown
    simp only [Committee.aggregateOn,hw'.signatures,hw'.prePrepareSig]
  have hkept : r.prePrepareHash = h ∧ r.prePrepareSig = g.primary.sign h ∧
      r.reproposeSubset = false ∧ r.neRejectVote = 0 ∧ r.neRejectStake = 0 ∧
      r.currentBatch = batch ∧ Primary.RoundQueue r := by
    cases hown
    exact ⟨hw'.prePrepareHash,hw'.prePrepareSig,hw'.reproposeSubset,hw'.neRejectVote,
      hw'.neRejectStake,hw'.currentBatch,hw'.queue.congr rfl rfl⟩
  obtain ⟨hhash,hsign,hflag,hvote,hstake,hbatch,hqueue⟩ := hkept
  refine ⟨_,_,hstep,⟨rfl,rfl,hhash,hsign,fun _ => ?_,?_,?_,?_,hflag,hvote,hstake,hbatch,
    hqueue.congr rfl rfl⟩,hyes,d,g.prepareOf h d,?_⟩
  · exact congrArg₂ g.primary.hashing.computeHash hhash hsig
  · funext i
    simp [Committee.signaturesOn,Primary.sendPostPrepare,Primary.advanceState]
  · exact myVote_eq
  · exact myStake_eq
  · simp only [Primary.sendPostPrepare,hbatch,hhash,hsig]
    rfl

theorem Waiting.commit_wait (hw : Waiting g .postPrepare h signed batch G p)
    (hd : d ≠ g.primary.delegateId) (hG : d ∉ G) (hno : g.enough (insert d G) = false) :
    ∃ q o,Primary.step g.primary p (.message d (g.commitOf h signed d) penv) = some (q,o) ∧
      Waiting g .postPrepare h signed batch (insert d G) q ∧ ∀ x ∈ o,∃ d m,x = .tallied d m := by
  obtain ⟨q,hcounted,hw'⟩ := hw.counted_commit hd hG
  have hproceed := hcounted.proceedWithMessage
  rw [hw'.reachedQuorum,hno,hw'.not_rejected] at hproceed
  simp only [Bool.and_false,Bool.false_eq_true,if_false] at hproceed
  refine ⟨q,[.tallied d (g.commitOf h signed d)],?_,hw',by simp⟩
  simp only [Primary.step,Primary.processMessage,hproceed]

/-- What the primary has done when the Commits reach quorum. -/
structure PostCommitted (batch : PrePrepare H σ ρ) (p : Primary.State H σ ρ)
    (o : List (Primary.Output H σ ρ)) : Prop where
  state : p.state ≠ .postPrepare
  stored : ∃ block : PostCommittedBlock H σ (List ρ),.store block ∈ o ∧
    block.toConsensusBlock = batch

theorem Waiting.commit_done (hw : Waiting g .postPrepare h signed batch G p)
    (hd : d ≠ g.primary.delegateId) (hG : d ∉ G) (hyes : g.enough (insert d G) = true) :
    ∃ q o,Primary.step g.primary p (.message d (g.commitOf h signed d) penv) = some (q,o) ∧
      PostCommitted batch q o := by
  obtain ⟨q,hcounted,hw'⟩ := hw.counted_commit hd hG
  obtain ⟨r,hown⟩ : ∃ r,Primary.aggregateOwn g.primary q .postPrepare = some r := ⟨_,rfl⟩
  have hstep := hcounted.postCommit penv (hw'.reachedQuorum.trans hyes) hown
  have hbatch : r.currentBatch = batch := by
    cases hown
    exact hw'.currentBatch
  have hqueue : Primary.RoundQueue { r with stateChanging := true } := by
    cases hown
    exact hw'.queue.congr rfl rfl
  obtain ⟨q',o,hsend,-⟩ := Primary.sendPostCommit_queueInv g.primary penv hqueue
  rw [hsend,map_some] at hstep
  refine ⟨q',_,hstep,?_,⟨r.currentBatch,r.postPrepareSig,r.postCommitSig⟩,by simp,hbatch⟩
  obtain ⟨block,o',-,hnext⟩ := Primary.sendPostCommit_some hsend
  cases hnext with
  | idle hstate => simp [hstate]
  | propose _ hproposed => simp [hproposed.state]

variable {backups : List DelegateId}

variable (penv) in
theorem exec_prepares (hw : Waiting g .prePrepare h h batch ∅ p)
    (hself : g.primary.delegateId ∉ backups) (hnodup : backups.Nodup) (hne : backups ≠ [])
    (henough : g.enough backups.toFinset = true) :
    ∃ q silent o,exec (Primary.step g.primary) p
        (backups.map fun d => .message d (g.prepareOf h d) penv) = some (q,silent ++ o) ∧
      (∀ x ∈ silent,∃ d m,x = .tallied d m) ∧
      PostPrepared g h batch (gather g.enough ∅ backups) q o := by
  have hok : ∀ d ∈ backups,d ≠ g.primary.delegateId := fun d hd heq => hself (heq ▸ hd)
  refine exec_gather (PostPrepared g h batch) ?wait ?done ?after hw hok hnodup (by simp) hne
    (by simpa using henough)
  case wait => exact fun G q d hw hd hG hno => hw.prepare_wait hd hG hno
  case done => exact fun G q d hw hd hG hyes => hw.prepare_done hd hG hyes
  case after =>
    intro G q o d hdone hd
    have hstate : q.state ≠ Primary.expectedState (g.prepareOf h d) := by
      rw [hdone.waiting.state]
      exact ConsensusState.noConfusion
    exact Primary.processMessage_of_state_ne penv hstate

variable (penv) in
theorem exec_commits (hw : Waiting g .postPrepare h signed batch ∅ p)
    (hself : g.primary.delegateId ∉ backups) (hnodup : backups.Nodup) (hne : backups ≠ [])
    (henough : g.enough backups.toFinset = true) :
    ∃ q silent o,exec (Primary.step g.primary) p
        (backups.map fun d => .message d (g.commitOf h signed d) penv) = some (q,silent ++ o) ∧
      (∀ x ∈ silent,∃ d m,x = .tallied d m) ∧ PostCommitted batch q o := by
  have hok : ∀ d ∈ backups,d ≠ g.primary.delegateId := fun d hd heq => hself (heq ▸ hd)
  refine exec_gather (fun _ => PostCommitted batch) ?wait ?done ?after hw hok hnodup (by simp) hne
    (by simpa using henough)
  case wait => exact fun G q d hw hd hG hno => hw.commit_wait hd hG hno
  case done => exact fun G q d hw hd hG hyes => hw.commit_done hd hG hyes
  case after => exact fun G q o d hdone hd => Primary.processMessage_of_state_ne penv hdone.state

end Counting

section Answering

variable (g : Committee H σ ρ)

/-- A backup that has nothing against `m`: in its round, or idle and waiting for it. -/
structure Aligned (m : PrePrepare H σ ρ) (env : Backup.Surroundings) (d : DelegateId)
    (b : Backup.State H σ ρ) : Prop where
  reachable : ∃ tip block es o,
    exec (Backup.step (g.backup d)) (Backup.init tip block) es = some (b,o)
  round : b.state ≠ .void → b.prePrepareHash = g.primary.hash m
  previous : b.state = .void → m.previous = b.prevPrePrepareHash
  sequence : b.state = .void → m.sequence = b.sequenceNumber
  valid : ∀ i < m.body.length,env.rejects i = false
  connection : env.connection ≠ .waitingDisconnect
  transition : ¬(env.transitionState = .connecting ∧
    (env.transitionDelegate = .persistent ∧ env.connection = .transitioning ∨
      env.transitionDelegate = .new))

/-- The old timestamp still passes, and a signed post-prepare carries the retry's signatures. -/
structure Responsive (m : PrePrepare H σ ρ) (env : Backup.Surroundings) (first : List DelegateId)
    (b : Backup.State H σ ρ) : Prop where
  fresh : b.state = .void → Backup.validateTimestamp m env = true ∨ env.isP2p = true
  signed : b.state = .commit → b.postPrepareHash = g.primary.hashing.computeHash (g.primary.hash m)
      (g.aggregateOn (g.primary.hash m) (gather g.enough ∅ first))

structure Prepared (h : H) (b : Backup.State H σ ρ) : Prop where
  state : b.state = .prepare ∧ b.postPrepareHash = 0 ∨ b.state = .commit
  prePrepareHash : b.prePrepareHash = h

variable {g} {m : PrePrepare H σ ρ} {env : Backup.Surroundings} {d : DelegateId}
variable {b : Backup.State H σ ρ}

theorem backup_hash (d : DelegateId) (m : PrePrepare H σ ρ) :
    (g.backup d).hash m = g.primary.hash m := by
  rw [Backup.Config.hash,g.hashing]
  rfl

theorem reply_prePrepare {b' : Backup.State H σ ρ} {o : List (Backup.Output H σ ρ)}
    (h : onPrePrepare (g.backup d) b m env = (b',o)) :
    g.reply d env b [.prePrepare m] = (b',o.filterMap (g.said d)) := by
  have hexec : exec (step (g.backup d)) b [.prePrepare m env] = some (b',o) := by
    rw [exec_cons_of_step (congrArg some h),exec_nil]
    simp
  simp only [Committee.reply,List.filterMap_cons,heard,List.filterMap_nil,hexec]

theorem Aligned.sound (h : Aligned g m env d b) : ∃ o,Backup.Sound (g.backup d) o b := by
  obtain ⟨tip,block,es,o,hexec⟩ := h.reachable
  exact ⟨o,exec_preserves (I := Backup.Sound (g.backup d)) (fun _ _ _ _ _ h _ hstep => h.step hstep)
    (Backup.init_sound tip block) (along_true _ es) hexec⟩

/-- An idle backup drops a batch with a stale timestamp. -/
theorem reply_stale (hvoid : b.state = .void)
    (hstale : ¬(validateTimestamp m env = true ∨ env.isP2p = true)) :
    (g.reply d env b [.prePrepare m]).2 = [] := by
  rw [not_or,Bool.not_eq_true,Bool.not_eq_true] at hstale
  have hdrop : onPrePrepare (g.backup d) b m env = (b,[]) := by
    simp [onPrePrepare,Backup.considerPrePrepare,hvoid,hstale.1,hstale.2]
  rw [reply_prePrepare hdrop]
  rfl

theorem reply_acceptable (h : Backup.Acceptable (g.backup d) b m env) :
    ∃ b',g.reply d env b [.prePrepare m] = (b',[g.prepareOf (g.primary.hash m) d]) ∧
      b'.state = .prepare ∧ b'.prePrepareHash = g.primary.hash m ∧
      b'.postPrepareHash = b.postPrepareHash := by
  obtain ⟨b',hanswer,hstate,hhash,hkept⟩ := h.onPrePrepare
  rw [backup_hash] at hanswer hhash
  exact ⟨b',reply_prePrepare hanswer,hstate,hhash,hkept⟩

/-- A backup in the round of the batch repeats its Prepare. -/
theorem reply_repeat (hround : b.state = .prepare ∨ b.state = .commit)
    (hhash : b.prePrepareHash = g.primary.hash m) :
    g.reply d env b [.prePrepare m] = (b,[g.prepareOf (g.primary.hash m) d]) := by
  have hanswer : onPrePrepare (g.backup d) b m env =
      (b,[.prepare (g.primary.hash m) b.prePrepare]) := by
    simp only [onPrePrepare,backup_hash,hhash,if_pos,if_pos hround]
  exact reply_prePrepare hanswer

theorem Aligned.prepare (h : Aligned g m env d b) {p : Primary.State H σ ρ}
    (hheaded : Primary.HeadedBy g.primary p m)
    (hsig : m.preprepareSig = g.primary.sign (g.primary.hash m))
    (hfresh : b.state = .void → validateTimestamp m env = true ∨ env.isP2p = true) :
    ∃ b',g.reply d env b [.prePrepare m] = (b',[g.prepareOf (g.primary.hash m) d]) ∧
      Prepared (g.primary.hash m) b' ∧ (b'.state = .commit ↔ b.state = .commit) ∧
      b'.postPrepareHash = b.postPrepareHash := by
  obtain ⟨o,hsound⟩ := h.sound
  have hpost := hsound.noPostPrepare
  by_cases hvoid : b.state = .void
  · have hacceptable : Backup.Acceptable (g.backup d) b m env :=
      ⟨hvoid,hheaded.primaryDelegate.trans (g.remote d).symm,
        by rw [backup_hash,hsig]; exact g.verifyRemote d _,h.previous hvoid,h.sequence hvoid,
        hheaded.epochNumber.trans (g.expectedEpochNumber d).symm,hfresh hvoid,h.valid,
        h.connection,h.transition⟩
    obtain ⟨b',hreply,hstate,hhash,hkept⟩ := reply_acceptable hacceptable
    refine ⟨b',hreply,⟨.inl ⟨hstate,?_⟩,hhash⟩,?_,hkept⟩
    · rw [hkept,hpost (by simp [hvoid])]
    · simp [hstate,hvoid]
  · have hround : b.state = .prepare ∨ b.state = .commit := hsound.state.resolve_left hvoid
    refine ⟨b,reply_repeat hround (h.round hvoid),⟨?_,h.round hvoid⟩,Iff.rfl,rfl⟩
    rcases hround with hprepare | hcommit
    · exact .inl ⟨hprepare,hpost (by simp [hprepare])⟩
    · exact .inr hcommit

theorem aggregateOn_map (h : H) (G : Finset DelegateId) :
    (g.aggregateOn h G).map = insert g.primary.delegateId G := by
  ext i
  by_cases hi : i = g.primary.delegateId
  · simp [Committee.aggregateOn,aggregateSignature,hi]
  · simp [Committee.aggregateOn,aggregateSignature,hi,Committee.signaturesOn]

theorem validatePostPrepare_aggregateOn {h : H} {G : Finset DelegateId} (hG : g.enough G = true)
    (hhash : b.prePrepareHash = h) :
    Backup.validatePostPrepare (g.backup d) b ⟨h,g.aggregateOn h G⟩ = true := by
  have hverify : (g.backup d).verifyAggregate h (g.aggregateOn h G) = true := by
    refine g.verifyAggregate d h _ fun i sig hsig => ?_
    by_cases hi : i = g.primary.delegateId
    · rw [hi,Function.update_self,some.injEq] at hsig
      rw [if_pos hi,hsig]
    · rw [Function.update_of_ne hi,Committee.signaturesOn] at hsig
      split_ifs at hsig
      rw [if_neg hi]
      exact (some.inj hsig).symm
  have hquorum : (g.backup d).thresholds.validateQuorum (g.aggregateOn h G).map = true := by
    rw [aggregateOn_map,g.thresholds]
    exact hG
  simp [Backup.validatePostPrepare,hhash,hverify,hquorum]

theorem reply_postPrepare {silent : List (Primary.Output H σ ρ)}
    (hsilent : ∀ x ∈ silent,∃ d m,x = .tallied d m) (d' : DelegateId) (answer : Message H σ)
    (s : BitVec 32) (message : PostPhaseMessage H σ) {b' : Backup.State H σ ρ}
    {o : List (Backup.Output H σ ρ)} (h : onPostPrepare (g.backup d) b message = some (b',o)) :
    g.reply d env b (silent ++ [.tallied d' answer,.postPrepare s message]) =
      (b',o.filterMap (g.said d)) := by
  have hquiet : silent.filterMap (heard env) = [] := by
    rw [List.filterMap_eq_nil_iff]
    intro x hx
    obtain ⟨_,_,rfl⟩ := hsilent x hx
    rfl
  have hexec : exec (step (g.backup d)) b [.postPrepare message] = some (b',o) := by
    have hstep : step (g.backup d) b (.postPrepare message) = some (b',o) := h
    rw [exec_cons_of_step hstep,exec_nil]
    simp
  simp only [Committee.reply,List.filterMap_append,hquiet,List.nil_append,List.filterMap_cons,heard,
    List.filterMap_nil,hexec]

/-- A prepared backup answers the PostPrepare with a Commit, unless it has signed another one. -/
theorem Prepared.commit {h : H} {G : Finset DelegateId} (hb : Prepared h b)
    (hG : g.enough G = true) {silent : List (Primary.Output H σ ρ)}
    (hsilent : ∀ x ∈ silent,∃ d m,x = .tallied d m) (d' : DelegateId) (answer : Message H σ)
    (s : BitVec 32) (signed : H) (hsigned : g.primary.hashing.computeHash h (g.aggregateOn h G) = signed) :
    (g.reply d env b (silent ++ [.tallied d' answer,.postPrepare s ⟨h,g.aggregateOn h G⟩])).2 =
      if b.state = .commit → b.postPrepareHash = signed then [g.commitOf h signed d] else [] := by
  have hcompute : (g.backup d).hashing.computeHash h (g.aggregateOn h G) = signed := by
    rw [g.hashing]
    exact hsigned
  rcases hb.state with ⟨hstate,hzero⟩ | hstate
  · have hne : ¬signed = b.postPrepareHash := by
      rw [hzero,← hcompute]
      exact (g.nonzeroHashes d).2 _ _
    have hvalid := validatePostPrepare_aggregateOn (d := d) hG hb.prePrepareHash
    have hanswer : ∃ b',onPostPrepare (g.backup d) b ⟨h,g.aggregateOn h G⟩ =
        some (b',[.commit h signed]) := by
      simp only [onPostPrepare,hcompute,if_neg hne,hstate,hvalid,hb.prePrepareHash]
      exact ⟨_,rfl⟩
    obtain ⟨b',hanswer⟩ := hanswer
    rw [reply_postPrepare hsilent d' answer s _ hanswer,if_pos (by simp [hstate])]
    rfl
  · by_cases hsame : signed = b.postPrepareHash
    · have hanswer : onPostPrepare (g.backup d) b ⟨h,g.aggregateOn h G⟩ =
          some (b,[.commit h signed]) := by
        simp [onPostPrepare,hcompute,hsame,hstate,hb.prePrepareHash]
      rw [reply_postPrepare hsilent d' answer s _ hanswer,if_pos fun _ => hsame.symm]
      rfl
    · have hanswer : onPostPrepare (g.backup d) b ⟨h,g.aggregateOn h G⟩ = some (b,[]) := by
        simp [onPostPrepare,hcompute,hsame,hstate]
      rw [reply_postPrepare hsilent d' answer s _ hanswer,
        if_neg fun hall => hsame (hall hstate).symm]
      rfl

end Answering

section Progress

variable {g : Committee H σ ρ} {p p1 : Primary.State H σ ρ} {penv : Primary.Surroundings ρ}
variable {m : PrePrepare H σ ρ} {first : List DelegateId}

theorem deliver_singleton (answer : DelegateId → Message H σ)
    {answers : DelegateId → List (Message H σ)} {order : List DelegateId}
    (h : ∀ d ∈ order,answers d = [answer d]) :
    deliver penv order answers = order.map fun d => .message d (answer d) penv := by
  induction order with
  | nil => rfl
  | cons d order ih =>
    have hrest := ih fun d' hd' => h d' (List.mem_cons_of_mem _ hd')
    rw [deliver] at hrest ⊢
    rw [List.flatMap_cons,hrest,h d List.mem_cons_self]
    rfl

theorem onTimeout_proposes {expected : ConsensusState}
    (h : Primary.onTimeout g.primary p expected penv = some (p1,[.prePrepare m])) :
    p.state = expected ∧ Primary.initiateConsensus g.primary
      (Primary.advanceState g.primary p .void) true penv = some (p1,[.prePrepare m]) := by
  simp only [Primary.onTimeout,Primary.onQuorumFailed] at h
  split_ifs at h with hstate hproceed
  · simp at h
  · exact ⟨not_not.mp hstate,h⟩
  · simp at h

theorem timeout_proposes
    (h : Primary.step g.primary p (timeoutOf p penv) = some (p1,[.prePrepare m])) :
    p.InRound ∧ Primary.initiateConsensus g.primary (Primary.advanceState g.primary p .void) true
      penv = some (p1,[.prePrepare m]) := by
  by_cases hstate : p.state = .prePrepare
  · rw [timeoutOf,if_pos hstate] at h
    exact (onTimeout_proposes h).imp_left .inl
  · rw [timeoutOf,if_neg hstate] at h
    exact (onTimeout_proposes h).imp_left .inr

/-- After a proposal the primary waits for answers to it. -/
theorem waiting_of_proposed {p0 : Primary.State H σ ρ} {reproposing : Bool}
    (h : Primary.Proposed g.primary p0 reproposing p1 m) (hqueue : Primary.QueueInv p1) :
    Waiting g .prePrepare (g.primary.hash m) (g.primary.hash m) m ∅ p1 := by
  have hsignatures : p1.signatures = g.signaturesOn (g.primary.hash m) ∅ := by
    funext i
    have hi : i ∉ p1.signers := by simp [h.fresh.signers]
    simpa [Primary.State.signers,Committee.signaturesOn] using hi
  exact ⟨h.state,h.fresh.stateChanging,h.prePrepareHash,h.prePrepareSig,(fun heq => by cases heq),hsignatures,
    h.fresh.prepareVote.trans myVote_eq,h.fresh.prepareStake.trans myStake_eq,h.reproposeSubset,
    h.neRejectVote,h.neRejectStake,h.currentBatch,hqueue.round (.inl h.state)⟩

theorem timeout_waiting {tip : H} {sequence : BitVec 32} {es : List (Primary.Event H σ ρ)}
    {log : List (Primary.Output H σ ρ)}
    (hreach : exec (Primary.step g.primary) (Primary.init tip sequence) es = some (p,log))
    (htimeout : Primary.step g.primary p (timeoutOf p penv) = some (p1,[.prePrepare m])) :
    Waiting g .prePrepare (g.primary.hash m) (g.primary.hash m) m ∅ p1 ∧
      Primary.HeadedBy g.primary p1 m ∧
      m.preprepareSig = g.primary.sign (g.primary.hash m) := by
  have hlocked := Primary.exec_locked hreach
  have hqueue := (Primary.exec_queueInv hreach).step htimeout
  obtain ⟨hin,hinit⟩ := timeout_proposes htimeout
  obtain ⟨b,hb,hproposed⟩ := Primary.initiateConsensus_some hinit
  obtain rfl : m = b := by simpa using hb
  have hheaded : Primary.HeadedBy g.primary p1 m := hproposed.headed fun _ _ =>
    ⟨hlocked.epochNumber hin,(hlocked.headed hin).congr rfl rfl⟩
  exact ⟨waiting_of_proposed hproposed hqueue,hheaded,hproposed.preprepareSig⟩

variable {env : DelegateId → Backup.Surroundings} {second : List DelegateId}
variable {b : DelegateId → Backup.State H σ ρ}

variable (penv) in
/-- When every backup answers the PrePrepare, the PostPrepare carries the signatures that reach
quorum first, and a backup commits unless it signed another. -/
theorem exchange_of_prepared {h : H} (hwaiting : Waiting g .prePrepare h h m ∅ p1)
    (hself : g.primary.delegateId ∉ first) (hnodup : first.Nodup) (hne : first ≠ [])
    (hquorum : g.enough first.toFinset = true)
    (hprepared : ∀ d ∈ first,∃ b',g.reply d (env d) (b d) [.prePrepare m] =
      (b',[g.prepareOf h d]) ∧ Prepared h b' ∧ (b'.state = .commit ↔ (b d).state = .commit) ∧
      b'.postPrepareHash = (b d).postPrepareHash) :
    ∃ p2 silent o,exec (Primary.step g.primary) p1
        (deliver penv first fun d => (g.reply d (env d) (b d) [.prePrepare m]).2) =
          some (p2,silent ++ o) ∧ (∀ x ∈ silent,∃ d m,x = .tallied d m) ∧
      PostPrepared g h m (gather g.enough ∅ first) p2 o ∧ ∀ d ∈ first,
        (g.reply d (env d) (g.reply d (env d) (b d) [.prePrepare m]).1 (silent ++ o)).2 =
          if (b d).state = .commit → (b d).postPrepareHash =
              g.primary.hashing.computeHash h (g.aggregateOn h (gather g.enough ∅ first)) then
            [g.commitOf h (g.primary.hashing.computeHash h
              (g.aggregateOn h (gather g.enough ∅ first))) d]
          else [] := by
  obtain ⟨p2,silent,o,hexec,hsilent,hpost⟩ := exec_prepares penv hwaiting hself hnodup hne hquorum
  have hdeliver : deliver penv first (fun d => (g.reply d (env d) (b d) [.prePrepare m]).2) =
      first.map fun d => .message d (g.prepareOf h d) penv := by
    refine deliver_singleton _ fun d hd => ?_
    obtain ⟨b',hreply,-⟩ := hprepared d hd
    rw [hreply]
  refine ⟨p2,silent,o,by rw [hdeliver,hexec],hsilent,hpost,fun d hd => ?_⟩
  obtain ⟨b',hreply,hb',hcommit,hheld⟩ := hprepared d hd
  obtain ⟨d',answer,rfl⟩ := hpost.sent
  rw [hreply,hb'.commit hpost.enough hsilent d' answer m.sequence _ rfl]
  simp only [hcommit,hheld]

theorem retry_eq_some_iff {outcome : Outcome H σ ρ}
    (htimeout : Primary.step g.primary p (timeoutOf p penv) = some (p1,[.prePrepare m])) :
    g.retry env penv first second p b = some outcome ↔ ∃ p2 p3 postPrepared committed,
      exec (Primary.step g.primary) p1
        (deliver penv first fun d => (g.reply d (env d) (b d) [.prePrepare m]).2) =
          some (p2,postPrepared) ∧
      exec (Primary.step g.primary) p2 (deliver penv second fun d =>
        (g.reply d (env d) (g.reply d (env d) (b d) [.prePrepare m]).1 postPrepared).2) =
          some (p3,committed) ∧
      outcome = ⟨[.prePrepare m],fun d => (g.reply d (env d) (b d) [.prePrepare m]).2,
        postPrepared,fun d =>
          (g.reply d (env d) (g.reply d (env d) (b d) [.prePrepare m]).1 postPrepared).2,
        committed⟩ := by
  simp only [Committee.retry,htimeout]
  constructor
  · intro h
    split at h
    · cases h
    · next p2 postPrepared hfirst =>
      split at h
      · cases h
      · next p3 committed hsecond =>
        exact ⟨p2,p3,postPrepared,committed,hfirst,hsecond,(some.inj h).symm⟩
  · rintro ⟨p2,p3,postPrepared,committed,hfirst,hsecond,rfl⟩
    rw [hfirst]
    dsimp only
    rw [hsecond]

/-- A retry without losses completes exactly if every idle backup still accepts the old timestamp
and every one in COMMIT has signed the very aggregate. -/
theorem retry_completes_iff {tip : H} {sequence : BitVec 32} {es : List (Primary.Event H σ ρ)}
    {log : List (Primary.Output H σ ρ)}
    (hreach : exec (Primary.step g.primary) (Primary.init tip sequence) es = some (p,log))
    (htimeout : Primary.step g.primary p (timeoutOf p penv) = some (p1,[.prePrepare m]))
    (hsame : g.primary.hash m = p.prePrepareHash) (hself : g.primary.delegateId ∉ first)
    (hnodup : first.Nodup) (hperm : second.Perm first) (hne : first ≠ [])
    (hquorum : g.enough first.toFinset = true)
    (haligned : ∀ d ∈ first,Aligned g m (env d) d (b d)) :
    (∃ outcome,g.retry env penv first second p b = some outcome ∧ g.Completes p first outcome) ↔
      ∀ d ∈ first,Responsive g m (env d) first (b d) := by
  obtain ⟨hwaiting,hheaded,hsig⟩ := timeout_waiting hreach htimeout
  simp only [Committee.Completes,← hsame]
  constructor
  · rintro ⟨outcome,hretry,hprepares,⟨s,m',hm',hcommits⟩,-⟩
    obtain ⟨p2,p3,postPrepared,committed,hfirst,hsecond,rfl⟩ := (retry_eq_some_iff htimeout).mp hretry
    have hfresh : ∀ d ∈ first,(b d).state = .void →
        validateTimestamp m (env d) = true ∨ (env d).isP2p = true := by
      intro d hd hvoid
      by_contra hstale
      have hsilent := (reply_stale hvoid hstale).symm.trans (hprepares d hd)
      simp at hsilent
    have hprepared := fun d hd => (haligned d hd).prepare hheaded hsig (hfresh d hd)
    obtain ⟨p2',silent,o,hexec,hsilent,hpost,hanswers⟩ :=
      exchange_of_prepared penv hwaiting hself hnodup hne hquorum hprepared
    obtain ⟨rfl,rfl⟩ : p2 = p2' ∧ postPrepared = silent ++ o := by
      simpa using hfirst.symm.trans hexec
    refine fun d hd => ⟨hfresh d hd,?_⟩
    by_contra hother
    have hmute := (hanswers d hd).symm.trans (hcommits d hd)
    rw [if_neg hother] at hmute
    simp at hmute
  · intro hresponsive
    have hprepared := fun d hd => (haligned d hd).prepare hheaded hsig (hresponsive d hd).fresh
    obtain ⟨p2,silent,o,hexec,hsilent,hpost,hanswers⟩ :=
      exchange_of_prepared penv hwaiting hself hnodup hne hquorum hprepared
    have hcommits := fun d hd => (hanswers d hd).trans (if_pos (hresponsive d hd).signed)
    have hself' : g.primary.delegateId ∉ second := fun hmem => hself (hperm.mem_iff.mp hmem)
    have hquorum' : g.enough second.toFinset = true := by
      rwa [List.toFinset_eq_of_perm _ _ hperm]
    have hne' : second ≠ [] := by
      rintro rfl
      exact hne hperm.nil_eq.symm
    obtain ⟨p3,silent',o',hexec',hsilent',hdone⟩ := exec_commits penv hpost.waiting hself'
      (hperm.nodup_iff.mpr hnodup) hne' hquorum'
    rw [← deliver_singleton _ fun d hd => hcommits d (hperm.mem_iff.mp hd)] at hexec'
    refine ⟨_,(retry_eq_some_iff htimeout).mpr ⟨p2,p3,_,_,hexec,hexec',rfl⟩,fun d hd => ?_,?_,?_⟩
    · obtain ⟨b',hreply,-⟩ := hprepared d hd
      exact congrArg Prod.snd hreply
    · obtain ⟨d',answer,rfl⟩ := hpost.sent
      exact ⟨m.sequence,⟨g.primary.hash m,g.aggregateOn _ (gather g.enough ∅ first)⟩,by simp,hcommits⟩
    · obtain ⟨block,hmem,hblock⟩ := hdone.stored
      exact ⟨block,List.mem_append_right _ hmem,by rw [hblock]⟩

section Examples

open Primary (fourConfig batchAt envWith)
open Backup (quietEnv)

/-- Four delegates of equal weight; the hash of a PostPrepare depends on who has signed. -/
def fourCommittee : Committee ℕ Unit ℕ where
  primary := { fourConfig with
    hashing := ⟨id,Backup.pairDigest,fun h sig => Nat.pair h (∑ i ∈ sig.map,2 ^ i.val) + 1⟩ }
  backup d :=
    { remote := 0
      expectedEpochNumber := 0
      hashing := ⟨id,Backup.pairDigest,fun h sig => Nat.pair h (∑ i ∈ sig.map,2 ^ i.val) + 1⟩
      requestHash := id
      verifyRemote := fun _ _ => true
      verifyAggregate := fun _ _ => true
      thresholds := onCurrentEpochSet d fourConfig.weights }
  backupSign _ _ := ()
  remote _ := rfl
  expectedEpochNumber _ := rfl
  hashing _ := rfl
  thresholds _ := rfl
  nonzeroHashes _ := ⟨fun _ => Nat.succ_ne_zero _,fun _ _ => Nat.succ_ne_zero _⟩
  verify _ _ := rfl
  verifyRemote _ _ := rfl
  verifyAggregate _ _ _ _ := rfl

def batchHash : ℕ := fourCommittee.primary.hash (batchAt 0)

/-- The primary proposes a batch, and the Prepares of backups 1 and 2 reach it. -/
def firstRound : List (Primary.Event ℕ Unit ℕ) :=
  [.start true (envWith 0 []),.messageQueued (envWith 0 [7,8]),
    .message 1 (fourCommittee.prepareOf batchHash 1) (envWith 0 []),
    .message 2 (fourCommittee.prepareOf batchHash 2) (envWith 0 [])]

def firstLog : List (Primary.Output ℕ Unit ℕ) :=
  [.prePrepare (batchAt 0),.tallied 1 (fourCommittee.prepareOf batchHash 1),
    .tallied 2 (fourCommittee.prepareOf batchHash 2),.postPrepare 0 ⟨batchHash,{0,1,2},()⟩]

/-- A backup that has heard the first `n` outputs of the primary. -/
def backupAfter (n : ℕ) (d : DelegateId) : Backup.State ℕ Unit ℕ :=
  (fourCommittee.reply d quietEnv (Backup.init 0 none) (firstLog.take n)).1

theorem firstRound_exec : ∃ p p1,
    exec (Primary.step fourCommittee.primary) (Primary.init 0 0) firstRound = some (p,firstLog) ∧
    Primary.step fourCommittee.primary p (timeoutOf p (envWith 1 [])) =
      some (p1,[.prePrepare (batchAt 0)]) ∧
    fourCommittee.primary.hash (batchAt 0) = p.prePrepareHash := by
  have hrun : ((exec (Primary.step fourCommittee.primary) (Primary.init 0 0) firstRound).bind fun r =>
      (Primary.step fourCommittee.primary r.1 (timeoutOf r.1 (envWith 1 []))).map fun r' =>
        (r.2,r'.2,r.1.prePrepareHash)) =
      some (firstLog,[.prePrepare (batchAt 0)],batchHash) := by decide +kernel
  obtain ⟨⟨p,log⟩,hexec,hrest⟩ := bind_eq_some_iff.mp hrun
  obtain ⟨⟨p1,o⟩,hstep,heq⟩ := map_eq_some_iff.mp hrest
  obtain ⟨rfl,heq'⟩ := Prod.mk.inj heq
  obtain ⟨rfl,hhash⟩ := Prod.mk.inj heq'
  exact ⟨p,p1,hexec,hstep,hhash.symm⟩

theorem backupAfter_aligned : ∀ d ∈ [1,2,3],∀ n ∈ [0,1,4],
    Aligned fourCommittee (batchAt 0) quietEnv d (backupAfter n d) := by
  have hfacts : ∀ d ∈ [(1 : DelegateId),2,3],∀ n ∈ [0,1,4],
      (exec (step (fourCommittee.backup d)) (init 0 none)
        ((firstLog.take n).filterMap (heard quietEnv))).isSome ∧
      ((backupAfter n d).state ≠ .void → (backupAfter n d).prePrepareHash = batchHash) ∧
      ((backupAfter n d).state = .void → (batchAt 0).previous = (backupAfter n d).prevPrePrepareHash) ∧
      ((backupAfter n d).state = .void → (batchAt 0).sequence = (backupAfter n d).sequenceNumber) := by
    decide +kernel
  intro d hd n hn
  obtain ⟨hsome,hround,hprevious,hsequence⟩ := hfacts d hd n hn
  obtain ⟨r,hr⟩ := isSome_iff_exists.mp hsome
  have hreached : backupAfter n d = r.1 := by rw [backupAfter,Committee.reply,hr]
  exact ⟨⟨0,none,(firstLog.take n).filterMap (heard quietEnv),r.2,by rw [hr,hreached]⟩,hround,
    hprevious,hsequence,fun _ _ => rfl,nofun,by simp [quietEnv]⟩

/-- Backup 1 is in COMMIT, 2 in PREPARE and 3 idle; the same signatures are gathered. -/
theorem mixedBackups_complete : ∃ p outcome,
    exec (Primary.step fourCommittee.primary) (Primary.init 0 0) firstRound = some (p,firstLog) ∧
    fourCommittee.retry (fun _ => quietEnv) (envWith 1 []) [1,2,3] [3,1,2] p
      (fun d => backupAfter (if d = 1 then 4 else if d = 2 then 1 else 0) d) = some outcome ∧
    fourCommittee.Completes p [1,2,3] outcome := by
  obtain ⟨p,p1,hexec,htimeout,hsame⟩ := firstRound_exec
  have haligned : ∀ d ∈ [1,2,3],Aligned fourCommittee (batchAt 0) quietEnv d
      (backupAfter (if d = 1 then 4 else if d = 2 then 1 else 0) d) := fun d hd =>
    backupAfter_aligned d hd _ (by split_ifs <;> simp)
  have hresponsive : ∀ d ∈ [1,2,3],Responsive fourCommittee (batchAt 0) quietEnv [1,2,3]
      (backupAfter (if d = 1 then 4 else if d = 2 then 1 else 0) d) := by
    have hsigned : ∀ d ∈ [(1 : DelegateId),2,3],
        (backupAfter (if d = 1 then 4 else if d = 2 then 1 else 0) d).state = .commit →
        (backupAfter (if d = 1 then 4 else if d = 2 then 1 else 0) d).postPrepareHash =
          fourCommittee.primary.hashing.computeHash batchHash
            (fourCommittee.aggregateOn batchHash (gather fourCommittee.enough ∅ [1,2,3])) := by
      decide +kernel
    exact fun d hd => ⟨fun _ => .inl (by decide),hsigned d hd⟩
  have horder : [3,1,2].Perm [(1 : DelegateId),2,3] := by decide
  obtain ⟨outcome,hretry,hcompletes⟩ := (retry_completes_iff hexec htimeout hsame (by decide)
    (by decide) horder (by decide) (by decide +kernel) haligned).mpr hresponsive
  exact ⟨p,outcome,hexec,hretry,hcompletes⟩

/-- All Commits are lost. In the retry the backups ignore the PostPrepare of other signatures. -/
theorem lostCommits_blockRetry : ∃ p p1 outcome,
    exec (Primary.step fourCommittee.primary) (Primary.init 0 0) firstRound = some (p,firstLog) ∧
    Primary.step fourCommittee.primary p (timeoutOf p (envWith 1 [])) =
      some (p1,[.prePrepare (batchAt 0)]) ∧
    fourCommittee.primary.hash (batchAt 0) = p.prePrepareHash ∧
    fourCommittee.enough {1,2,3} = true ∧
    (∀ d ∈ [1,2,3],Aligned fourCommittee (batchAt 0) quietEnv d (backupAfter 4 d)) ∧
    fourCommittee.retry (fun _ => quietEnv) (envWith 1 []) [2,3,1] [2,3,1] p (backupAfter 4) =
      some outcome ∧
    ¬fourCommittee.Completes p [2,3,1] outcome := by
  obtain ⟨p,p1,hexec,htimeout,hsame⟩ := firstRound_exec
  have hrun : ((exec (Primary.step fourCommittee.primary) (Primary.init 0 0) firstRound).bind fun r =>
      (fourCommittee.retry (fun _ => quietEnv) (envWith 1 []) [2,3,1] [2,3,1] r.1 (backupAfter 4)).map
        fun outcome => (outcome.commits 2)) = some [] := by decide +kernel
  rw [hexec,bind_some] at hrun
  obtain ⟨outcome,hretry,hmute⟩ := map_eq_some_iff.mp hrun
  refine ⟨p,p1,outcome,hexec,htimeout,hsame,by decide +kernel,fun d hd => ?_,hretry,?_⟩
  · exact backupAfter_aligned d hd 4 (by simp)
  · rintro ⟨-,⟨s,m,-,hcommits⟩,-⟩
    have hsome := hmute.symm.trans (hcommits 2 (by simp))
    simp at hsome

end Examples

end Progress

end LogosCore.Retry
