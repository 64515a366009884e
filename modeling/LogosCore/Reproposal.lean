import LogosCore.Retry

/-!
# Re-proposing a subset

When some requests of a batch are rejected, the primary proposes a subset for the same sequence
number and counts on the backups that have prepared the whole batch. Those are in PREPARE, where
`ProceedWithMessage` turns every other PrePrepare away before `ValidateReProposal` is reached.
-/

namespace LogosCore.Reproposal

open Machine Quorum Retry
open Primary (exec_locked init step)
open Primary (Message)

variable {H σ ρ : Type} [DecidableEq H] [Zero H] [Inhabited σ] (g : Committee H σ ρ)

/-- The backup has answered the batch `m` with a Prepare or by rejecting some of its requests. -/
def Answered (m : PrePrepare H σ ρ) (d : DelegateId) (b : Backup.State H σ ρ) : Prop :=
  ∃ tip block es log b0 env o,
    exec (Backup.step (g.backup d)) (Backup.init tip block) es = some (b0,log) ∧
    Backup.onPrePrepare (g.backup d) b0 m env = (b,o) ∧
    ((∃ approved,.prepare (g.primary.hash m) approved ∈ o) ∨
      ∃ map,.rejection (g.primary.hash m) .containsInvalidRequest map ∈ o)

/-- The timestamp of `m` is in order, its requests are valid and no epoch change is under way. -/
structure Willing (m : PrePrepare H σ ρ) (env : Backup.Surroundings) : Prop where
  fresh : Backup.validateTimestamp m env = true ∨ env.isP2p = true
  valid : ∀ i < m.body.length,env.rejects i = false
  connection : env.connection ≠ .waitingDisconnect
  transition : ¬(env.transitionState = .connecting ∧
    (env.transitionDelegate = .persistent ∧ env.connection = .transitioning ∨
      env.transitionDelegate = .new))

variable {g} {m m' : PrePrepare H σ ρ} {d : DelegateId} {b : Backup.State H σ ρ}
variable {env : Backup.Surroundings}

/-- A backup that has prepared the batch stays in its round, one that has rejected it is idle. -/
theorem Answered.state (h : Answered g m d b) : b.reason = .void ∧
    ((b.state = .void ∧ m.previous = b.prevPrePrepareHash ∧ m.sequence = b.sequenceNumber) ∨
      (b.state = .prepare ∨ b.state = .commit) ∧ b.prePrepareHash = g.primary.hash m) := by
  obtain ⟨tip,block,es,log,b0,env,o,hexec,hanswer,hsent⟩ := h
  have hsound : Backup.Sound (g.backup d) log b0 :=
    exec_preserves (I := Backup.Sound (g.backup d)) (fun _ _ _ _ _ h _ hstep => h.step hstep)
      (Backup.init_sound tip block) (along_true _ es) hexec
  have hstep : Backup.step (g.backup d) b0 (.prePrepare m env) = some (b,o) := congrArg some hanswer
  obtain ⟨heffect,hreason⟩ := Backup.step_effect hsound.reason hstep
  refine ⟨hreason,?_⟩
  cases heffect with
  | approve hvoid hprev hseq hstate hm hhash hkept =>
    exact .inr ⟨.inl hstate,hhash.trans (backup_hash d m)⟩
  | repeatPrepare hstate hhash => exact .inr ⟨hstate,hhash.symm.trans (backup_hash d m)⟩
  | decline hstate hhash hkept hm ho hinvalid =>
    rcases hsent with ⟨approved,hmem⟩ | ⟨map,hmem⟩
    · rcases ho with rfl | ⟨h,r,map,rfl⟩
      · simp at hmem
      · simp at hmem
    · rcases ho with rfl | ⟨h,r,map',rfl⟩
      · simp at hmem
      · obtain ⟨rfl,rfl,rfl⟩ : g.primary.hash m = h ∧ .containsInvalidRequest = r ∧ map = map' := by
          simpa using hmem
        obtain ⟨hvoid,hprev,hseq⟩ := hinvalid _ map rfl
        rw [hstate,hkept.1,hkept.2.1]
        exact .inl ⟨hvoid,hprev,hseq⟩
  | ignore => simp at hsent

theorem reply_other (hreason : b.reason = .void) (hround : b.state = .prepare ∨ b.state = .commit)
    (hother : g.primary.hash m' ≠ b.prePrepareHash) :
    (g.reply d env b [.prePrepare m']).2 = [] := by
  have hbusy : b.state ≠ .void := by
    rcases hround with hstate | hstate
    · simp [hstate]
    · simp [hstate]
  have hconsider : (Backup.considerPrePrepare (g.backup d) b m' env).2 = [] := by
    simp only [Backup.considerPrePrepare,Backup.proceedWithPrePrepare,if_pos hbusy]
    split_ifs
    · rfl
    · simp [Backup.reject,Backup.handleReject,hreason]
  have hsilent : (Backup.onPrePrepare (g.backup d) b m' env).2 = [] := by
    simp only [Backup.onPrePrepare,backup_hash,if_neg hother]
    split_ifs
    · rfl
    · exact hconsider
  rw [reply_prePrepare (o := []) (Prod.ext rfl hsilent)]
  rfl

variable {p p1 : Primary.State H σ ρ} {penv : Primary.Surroundings ρ}

/-- A PrePrepare that the primary sends during the Prepare phase takes the place of its batch. -/
theorem reproposal_waiting {tip : H} {sequence : BitVec 32} {es : List (Primary.Event H σ ρ)}
    {log o : List (Primary.Output H σ ρ)} {e : Primary.Event H σ ρ}
    (hreach : exec (step g.primary) (init tip sequence) es = some (p,log))
    (hstate : p.state = .prePrepare) (hstep : step g.primary p e = some (p1,o))
    (hsent : .prePrepare m' ∈ o) :
    Waiting g .prePrepare (g.primary.hash m') (g.primary.hash m') m' ∅ p1 ∧
      Primary.HeadedBy g.primary p m' ∧
      m'.preprepareSig = g.primary.sign (g.primary.hash m') := by
  have hlocked := exec_locked hreach
  have hqueue := (Primary.exec_queueInv hreach).step hstep
  have hin : p.InRound := .inl hstate
  cases Primary.step_effect hstep with
  | ignore => simp at hsent
  | await => simp at hsent
  | count => simp at hsent
  | postPrepare => simp at hsent
  | postCommit hcounted =>
    have hcommit := hcounted.state
    rw [hstate] at hcommit
    cases hcommit
  | yield => simp at hsent
  | subset hcounted _ hflag _ hsequence hprevious hproposed =>
    obtain rfl : m' = _ := by simpa using hsent
    have hsame := hcounted.sameRound
    refine ⟨waiting_of_proposed hproposed hqueue,?_,hproposed.preprepareSig⟩
    exact (hproposed.anew (.inr hflag)).congr (hsame.sequence.symm.trans hsequence.symm)
      (hsame.prevPrePrepareHash.symm.trans hprevious.symm)
  | repropose _ hproposed =>
    obtain rfl : m' = _ := by simpa using hsent
    have hheaded := hproposed.headed fun _ _ =>
      ⟨hlocked.epochNumber hin,(hlocked.headed hin).congr rfl rfl⟩
    exact ⟨waiting_of_proposed hproposed hqueue,
      hheaded.congr hproposed.sequence.symm hproposed.prevPrePrepareHash.symm,
      hproposed.preprepareSig⟩
  | propose hidle =>
    rcases hidle with hidle | hinit
    · rw [hlocked.ongoing hin] at hidle
      cases hidle
    · rw [hstate] at hinit
      cases hinit

variable {backups : List DelegateId} {environments : DelegateId → Backup.Surroundings}
variable {states : DelegateId → Backup.State H σ ρ}

section Examples

open Primary (batchAt envWith)
open Backup (quietEnv)

def rejectWith (map : List Bool) : Message ℕ Unit :=
  .rejection ⟨batchHash,.containsInvalidRequest,map,()⟩

/-- What backup `d` does with the batch if it finds the marked requests invalid. -/
def wary (map : List Bool) (d : DelegateId) : Backup.State ℕ Unit ℕ × List (Backup.Output ℕ Unit ℕ) :=
  Backup.onPrePrepare (fourCommittee.backup d) (Backup.init 0 none) (batchAt 0)
    { quietEnv with rejects := fun i => map.getD i false }

def subsetBatch : PrePrepare ℕ Unit ℕ := { batchAt 1 with body := [8] }

theorem wary_answered {map : List Bool} {d : DelegateId}
    (h : (wary map d).2 = [.prepare batchHash (some (batchAt 0))] ∨
      (wary map d).2 = [.rejection batchHash .containsInvalidRequest map]) :
    Answered fourCommittee (batchAt 0) d (wary map d).1 := by
  refine ⟨0,none,[],[],Backup.init 0 none,_,(wary map d).2,rfl,rfl,?_⟩
  rcases h with h | h
  · exact .inl ⟨_,by rw [h]; exact List.mem_singleton.mpr rfl⟩
  · exact .inr ⟨_,by rw [h]; exact List.mem_singleton.mpr rfl⟩

theorem subsetBatch_willing : Willing subsetBatch quietEnv :=
  ⟨.inl (by decide),fun _ _ => rfl,nofun,by simp [quietEnv]⟩

/-- The last rejection makes the primary propose the batch without request 7. -/
theorem exec_reproposes (es : List (Primary.Event ℕ Unit ℕ))
    (h : ((exec (step fourCommittee.primary) (init 0 0) es).bind fun r =>
      (step fourCommittee.primary r.1
        (.message 2 (rejectWith [true,false]) (envWith 1 []))).map fun r' =>
          (r.1.state,r.1.currentBatch,r'.2)) = some (.prePrepare,batchAt 0,
            [.tallied 2 (rejectWith [true,false]),.prePrepare subsetBatch])) :
    ∃ p log p1,exec (step fourCommittee.primary) (init 0 0) es = some (p,log) ∧
      p.state = .prePrepare ∧ p.currentBatch = batchAt 0 ∧
      step fourCommittee.primary p (.message 2 (rejectWith [true,false]) (envWith 1 [])) =
        some (p1,[.tallied 2 (rejectWith [true,false]),.prePrepare subsetBatch]) := by
  obtain ⟨⟨p,log⟩,hexec,hrest⟩ := Option.bind_eq_some_iff.mp h
  obtain ⟨⟨p1,o⟩,hstep,heq⟩ := Option.map_eq_some_iff.mp hrest
  obtain ⟨hstate,heq'⟩ := Prod.mk.inj heq
  obtain ⟨hbatch,rfl⟩ := Prod.mk.inj heq'
  exact ⟨p,log,p1,hexec,hstate,hbatch,hstep⟩

def oneRejection : List (Primary.Event ℕ Unit ℕ) :=
  [.start true (envWith 0 []),.messageQueued (envWith 0 [7,8]),
    .message 1 (rejectWith [true,false]) (envWith 0 [])]

/-- Backup 3 prepares the batch, backup 1 rejects both requests. -/
def prepareAndRejection : List (Primary.Event ℕ Unit ℕ) :=
  [.start true (envWith 0 []),.messageQueued (envWith 0 [7,8]),
    .message 3 (fourCommittee.prepareOf batchHash 3) (envWith 0 []),
    .message 1 (rejectWith [true,true]) (envWith 0 [])]

end Examples

end LogosCore.Reproposal
