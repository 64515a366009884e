import LogosCore.PrimaryProposal

/-!
# The internal queue of the primary

The queue is a sequence of segments, each closed by a delimiter and none longer than a batch; while
a round is going on its first segment is the current batch. `ConstructBatch` therefore finds a
delimiter, and `PopFront` removes exactly the first segment.
-/

namespace LogosCore.Primary

open Machine Quorum Subsets

section Segments

variable {H ρ : Type} [DecidableEq H]

def segment (requests : List ρ) : List (Option ρ) := requests.map some ++ [none]

/-- A concatenation of closed segments that fit into a batch. -/
def Segmented (queue : List (Option ρ)) : Prop :=
  ∃ segments : List (List ρ),queue = segments.flatMap segment ∧
    ∀ s ∈ segments,s.length ≤ consensusBatchSize

theorem segmented_nil : Segmented ([] : List (Option ρ)) := ⟨[],rfl,by simp⟩

theorem segmented_segment {requests : List ρ} (h : requests.length ≤ consensusBatchSize) :
    Segmented (segment requests) :=
  ⟨[requests],by simp,by simpa using h⟩

theorem segmented_delimiter : Segmented [(none : Option ρ)] := ⟨[[]],rfl,by simp⟩

theorem Segmented.append {q1 q2 : List (Option ρ)} (h1 : Segmented q1) (h2 : Segmented q2) :
    Segmented (q1 ++ q2) := by
  obtain ⟨s1,rfl,hs1⟩ := h1
  obtain ⟨s2,rfl,hs2⟩ := h2
  refine ⟨s1 ++ s2,by simp,fun s hs => ?_⟩
  rcases List.mem_append.mp hs with hs | hs
  · exact hs1 s hs
  · exact hs2 s hs

theorem Segmented.eq_cons {queue : List (Option ρ)} (h : Segmented queue) (hne : queue ≠ []) :
    ∃ requests rest,queue = segment requests ++ rest ∧
      requests.length ≤ consensusBatchSize ∧ Segmented rest := by
  obtain ⟨segments,rfl,hsegments⟩ := h
  cases segments with
  | nil => simp at hne
  | cons s segments =>
    exact ⟨s,segments.flatMap segment,by simp,hsegments s List.mem_cons_self,segments,rfl,
      fun s hs => hsegments s (List.mem_cons_of_mem _ hs)⟩

theorem filter_segment (keep : ρ → Bool) (requests : List ρ) :
    (segment requests).filter (fun entry => entry.all keep) = segment (requests.filter keep) := by
  induction requests with
  | nil => rfl
  | cons r requests ih =>
    simp only [segment,List.map_cons,List.cons_append] at ih ⊢
    by_cases hr : keep r = true
    · simp [hr,ih]
    · simp [hr,ih]

theorem Segmented.filter {queue : List (Option ρ)} (h : Segmented queue) (keep : ρ → Bool) :
    Segmented (queue.filter fun entry => entry.all keep) := by
  obtain ⟨segments,rfl,hsegments⟩ := h
  refine ⟨segments.map (List.filter keep),?_,fun s hs => ?_⟩
  · simp only [List.filter_flatMap,List.flatMap_map,filter_segment]
  · obtain ⟨s',hs',rfl⟩ := List.mem_map.mp hs
    exact (List.length_filter_le _ _).trans (hsegments s' hs')

/-- `ConstructBatch` takes the valid requests of the first segment and leaves them in front. -/
theorem takeBatch_segment (rejects : ℕ → Bool) (requests : List ρ) (rest : List (Option ρ))
    (pos : ℕ) (batch : List ρ) (h : batch.length + requests.length ≤ consensusBatchSize) :
    ∃ kept : List ρ,kept.Sublist requests ∧ takeBatch rejects pos batch (segment requests ++ rest) =
        some (batch ++ kept,segment kept ++ rest) := by
  induction requests generalizing pos batch with
  | nil => exact ⟨[],List.Sublist.slnil,by simp [segment,takeBatch]⟩
  | cons r requests ih =>
    rw [List.length_cons] at h
    simp only [segment,List.map_cons,List.cons_append,takeBatch]
    by_cases hreject : rejects pos = true
    · obtain ⟨kept,hsub,htake⟩ := ih (pos + 1) batch (by omega)
      rw [if_pos hreject]
      exact ⟨kept,hsub.cons r,htake⟩
    · obtain ⟨kept,hsub,htake⟩ := ih (pos + 1) (batch ++ [r]) (by simp; omega)
      rw [if_neg hreject,if_neg (by omega : ¬consensusBatchSize ≤ batch.length)]
      refine ⟨r :: kept,hsub.cons_cons r,?_⟩
      simp only [segment] at htake
      rw [htake]
      simp

/-- `PopFront` removes the first segment when it is the batch. -/
theorem popFront_segment (requestHash : ρ → H) (batch : List ρ) {rest : List (Option ρ)}
    (h : Segmented rest) :
    ∃ queue,popFront requestHash batch (segment batch ++ rest) = some queue ∧ Segmented queue := by
  have hgone : batch.filter (fun r => decide (requestHash r ∉ batch.map requestHash)) = [] := by
    rw [List.filter_eq_nil_iff]
    intro r hr
    simpa using ⟨r,hr,rfl⟩
  refine ⟨_,?_,h.filter fun r => decide (requestHash r ∉ batch.map requestHash)⟩
  rw [popFront,List.filter_append,filter_segment,hgone]
  rfl

end Segments

section Invariant

variable {H σ ρ : Type} [DecidableEq H] [Zero H] [Inhabited σ] {cfg : Config H σ ρ}
variable {p q : State H σ ρ}

def RoundQueue (p : State H σ ρ) : Prop :=
  ∃ rest,p.requestQueue = segment p.currentBatch.body ++ rest ∧ Segmented rest ∧
    p.currentBatch.body.length ≤ consensusBatchSize

structure QueueInv (p : State H σ ρ) : Prop where
  segmented : Segmented p.requestQueue
  round : p.InRound → RoundQueue p

theorem RoundQueue.segmented (h : RoundQueue p) : Segmented p.requestQueue := by
  obtain ⟨rest,hqueue,hrest,hlength⟩ := h
  rw [hqueue]
  exact (segmented_segment hlength).append hrest

theorem RoundQueue.queueInv (h : RoundQueue p) : QueueInv p := ⟨h.segmented,fun _ => h⟩

theorem RoundQueue.congr (h : RoundQueue p) (hqueue : q.requestQueue = p.requestQueue)
    (hbody : q.currentBatch.body = p.currentBatch.body) : RoundQueue q := by
  rwa [RoundQueue,hqueue,hbody]

theorem segmented_moveToTarget (due : List ρ) : Segmented (moveToTarget due) :=
  segmented_segment (List.length_take_le _ _)

section Handlers

variable (cfg)

theorem prePrepareGetNext_roundQueue (reproposing : Bool) (env : Surroundings ρ)
    (hseg : Segmented p.requestQueue)
    (hagain : reproposing = true → p.reproposeSubset = false → RoundQueue p) :
    ∃ q,prePrepareGetNext cfg p reproposing env = some q ∧ RoundQueue q := by
  simp only [prePrepareGetNext]
  by_cases hwhole : (reproposing && !p.reproposeSubset) = true
  · rw [if_pos hwhole]
    simp only [Bool.and_eq_true,Bool.not_eq_true'] at hwhole
    exact ⟨_,rfl,(hagain hwhole.1 hwhole.2).congr rfl rfl⟩
  · rw [if_neg hwhole]
    generalize hqueue :
      (if p.requestQueue.isEmpty = true then moveToTarget env.due else p.requestQueue) = queue
    have hsegmented : Segmented queue := by
      rw [← hqueue]
      split_ifs
      · exact segmented_moveToTarget env.due
      · exact hseg
    have hne : queue ≠ [] := by
      rw [← hqueue]
      split_ifs with hempty
      · simp [moveToTarget]
      · exact fun h => hempty (List.isEmpty_iff.mpr h)
    obtain ⟨requests,rest,rfl,hlength,hrest⟩ := hsegmented.eq_cons hne
    obtain ⟨kept,hsub,htake⟩ := takeBatch_segment env.rejects requests rest 0 [] (by simpa using hlength)
    simp only [constructBatch,htake]
    exact ⟨_,rfl,rest,rfl,hrest,hsub.length_le.trans hlength⟩

theorem initiateConsensus_roundQueue (reproposing : Bool) (env : Surroundings ρ)
    (hseg : Segmented p.requestQueue)
    (hagain : reproposing = true → p.reproposeSubset = false → RoundQueue p) :
    ∃ q o,initiateConsensus cfg p reproposing env = some (q,o) ∧ RoundQueue q := by
  obtain ⟨p1,hnext,hround⟩ := prePrepareGetNext_roundQueue cfg reproposing env hseg hagain
  simp only [initiateConsensus,hnext]
  exact ⟨_,_,rfl,hround.congr rfl rfl⟩

theorem onMessageQueued_queueInv (env : Surroundings ρ) (h : QueueInv p) :
    ∃ q o,onMessageQueued cfg p env = some (q,o) ∧ QueueInv q := by
  simp only [onMessageQueued]
  split_ifs
  · exact ⟨p,[],rfl,h⟩
  · obtain ⟨q,o,hinit,hround⟩ := initiateConsensus_roundQueue cfg
      (p := { p with ongoing := true }) false env h.segmented
      fun hfalse => absurd hfalse Bool.false_ne_true
    exact ⟨q,o,hinit,hround.queueInv⟩

theorem prePreparePopFront_segmented (env : Surroundings ρ) (h : RoundQueue p) :
    ∃ q,prePreparePopFront cfg p env = some q ∧ Segmented q.requestQueue := by
  obtain ⟨rest,hqueue,hrest,-⟩ := h
  obtain ⟨queue,hpop,hsegmented⟩ := popFront_segment cfg.requestHash p.currentBatch.body hrest
  simp only [prePreparePopFront,hqueue,hpop]
  exact ⟨_,rfl,hsegmented⟩

theorem beginNextRound_queueInv (env : Surroundings ρ) (h : RoundQueue p) (hout : ¬p.InRound) :
    ∃ q o,beginNextRound cfg p env = some (q,o) ∧ QueueInv q := by
  obtain ⟨p1,hpop,hsegmented⟩ := prePreparePopFront_segmented cfg
    (p := { p with prevPrePrepareHash := p.prePrepareHash }) env (h.congr rfl rfl)
  have hout1 : ¬State.InRound { p1 with ongoing := false } := by
    rw [prePreparePopFront_some hpop]
    exact hout
  simp only [beginNextRound,hpop]
  exact onMessageQueued_queueInv cfg (p := { p1 with ongoing := false }) env
    ⟨hsegmented,fun hin => absurd hin hout1⟩

/-- A batch that reached quorum in both phases is always post-committed. -/
theorem sendPostCommit_queueInv (env : Surroundings ρ) (h : RoundQueue p) :
    ∃ q o,sendPostCommit cfg p env = some (q,.postCommit ⟨p.prePrepareHash,p.postCommitSig⟩ ::
        .store ⟨p.currentBatch,p.postPrepareSig,p.postCommitSig⟩ :: o) ∧ QueueInv q := by
  have hround : RoundQueue { advanceState cfg p .postCommit with sequence := p.sequence + 1 } :=
    h.congr rfl rfl
  obtain ⟨q,o,hnext,hinv⟩ := beginNextRound_queueInv cfg env hround
    (by simp [State.InRound,advanceState])
  have hreached : onConsensusReached cfg (advanceState cfg p .postCommit) env =
      some (q,.store ⟨p.currentBatch,p.postPrepareSig,p.postCommitSig⟩ :: o) :=
    Option.map_eq_some_iff.mpr ⟨_,hnext,rfl⟩
  exact ⟨q,o,Option.map_eq_some_iff.mpr ⟨_,hreached,rfl⟩,hinv⟩

end Handlers

theorem segmented_subsetEntries {subsets : List (SupportMap DelegateId)} {batch : List ρ}
    (hlength : batch.length ≤ consensusBatchSize)
    (h : ∀ subset ∈ subsets,∀ i ∈ subset.2,i < batch.length) :
    Segmented (subsetEntries cfg batch subsets) := by
  refine ⟨subsets.map fun subset => (cfg.indexOrder subset.2).filterMap fun i => batch[i]?,?_,?_⟩
  · simp only [subsetEntries,List.flatMap_map]
    rfl
  · intro s hs
    obtain ⟨subset,hsubset,rfl⟩ := List.mem_map.mp hs
    have hcard : (cfg.indexOrder subset.2).length ≤ batch.length := by
      have hsub : (cfg.indexOrder subset.2).toFinset ⊆ Finset.range batch.length := fun i hi =>
        Finset.mem_range.mpr (h subset hsubset i
          ((cfg.mem_indexOrder _ i).mp (List.mem_toFinset.mp hi)))
      have hle := Finset.card_le_card hsub
      rwa [List.toFinset_card_of_nodup (cfg.nodup_indexOrder _),Finset.card_range] at hle
    exact (List.length_filterMap_le _ _).trans (hcard.trans hlength)

variable {o : List (Output H σ ρ)}

theorem onPrePrepareRejected_queueInv {env : Surroundings ρ} (hinv : RoundQueue p)
    (hflag : isPrePrepareRejected cfg p = true) (h : onPrePrepareRejected cfg p env = some (q,o)) :
    QueueInv q := by
  simp only [onPrePrepareRejected] at h
  split_ifs at h with hstate hepoch
  · cases h
    exact RoundQueue.queueInv (hinv.congr rfl rfl)
  split at h
  · cases h
  · next subsets hsubsets =>
    have hgroups := generateSubsets_grouped hsubsets
    have hentries : Segmented (subsetEntries cfg p.currentBatch.body subsets) := by
      obtain ⟨-,-,-,hlength⟩ := hinv
      exact segmented_subsetEntries hlength fun subset hsubset i hi =>
        ((hgroups.mem_iff i).mp ⟨subset,hsubset,hi⟩).1
    have hrequests : Segmented (if (subsetEntries cfg p.currentBatch.body subsets).isEmpty then
        [none] else subsetEntries cfg p.currentBatch.body subsets) := by
      split_ifs
      · exact segmented_delimiter
      · exact hentries
    obtain ⟨p1,hpop,hsegmented⟩ := prePreparePopFront_segmented cfg env hinv
    rw [hpop] at h
    have hsub : p1.reproposeSubset = true := by
      rw [prePreparePopFront_some hpop]
      simp only [isPrePrepareRejected,Bool.or_eq_true,Bool.and_eq_true] at hflag
      rcases hflag with hflag | hne
      · exact hflag.2
      · exact absurd hne hepoch
    obtain ⟨q',o',hinit,hround⟩ := initiateConsensus_roundQueue cfg
      (p := advanceState cfg { p1 with requestQueue := _ ++ p1.requestQueue } .void) true env
      (hrequests.append hsegmented) fun _ hfalse =>
        absurd (hfalse.symm.trans hsub) Bool.false_ne_true
    cases hinit.symm.trans h
    exact hround.queueInv

theorem Counted.roundQueue {d : DelegateId} {m : Message H σ} (h : Counted cfg p d m q)
    (hinv : QueueInv p) : RoundQueue q :=
  (hinv.round h.inRound).congr h.sameRound.requestQueue
    (congrArg ConsensusBlock.body h.sameRound.currentBatch)

theorem processMessage_queueInv {d : DelegateId} {m : Message H σ} {env : Surroundings ρ}
    (hinv : QueueInv p) (h : processMessage cfg p m d env = some (q,o)) : QueueInv q := by
  simp only [processMessage] at h
  split at h
  · cases h
  · next p1 trace hproceed =>
    cases h
    rcases proceedWithMessage_some hproceed with ⟨-,rfl,-⟩ | ⟨p2,hcounted,-,rfl⟩
    · exact hinv
    · exact (hcounted.roundQueue hinv).queueInv
  · next p1 trace hproceed =>
    obtain ⟨⟨q',o'⟩,hreject,heq⟩ := Option.map_eq_some_iff.mp h
    cases heq
    rcases proceedWithMessage_some hproceed with ⟨hne,-⟩ | ⟨p2,hcounted,-,hrejected,rfl⟩
    · cases hne
    · have hround : RoundQueue { p2 with stateChanging := true } :=
        (hcounted.roundQueue hinv).congr rfl rfl
      exact onPrePrepareRejected_queueInv hround hrejected hreject
  · next p1 trace hproceed =>
    rcases proceedWithMessage_some hproceed with
      ⟨hne,-⟩ | ⟨p2,hcounted,-,hphase,-,p3,hown,rfl⟩
    · cases hne
    have hround := hcounted.roundQueue hinv
    cases m with
    | prepare m =>
      cases h
      cases hown
      exact RoundQueue.queueInv (hround.congr rfl rfl)
    | commit m =>
      obtain ⟨⟨q',o'⟩,hcommit,heq⟩ := Option.map_eq_some_iff.mp h
      cases heq
      have hround3 : RoundQueue { p3 with stateChanging := true } := by
        cases hown
        exact hround.congr rfl rfl
      obtain ⟨q'',o'',hsend,hinv'⟩ := sendPostCommit_queueInv cfg env hround3
      cases hsend.symm.trans hcommit
      exact hinv'
    | rejection m => cases hphase

theorem QueueInv.step {e : Event H σ ρ} (hinv : QueueInv p) (h : step cfg p e = some (q,o)) :
    QueueInv q := by
  have htimeout : ∀ expected env,expected = .prePrepare ∨ expected = .postPrepare →
      onTimeout cfg p expected env = some (q,o) → QueueInv q := by
    intro expected env hexpected h
    simp only [onTimeout,onQuorumFailed] at h
    split_ifs at h with hstate hproceed
    · cases h
      exact hinv
    · have hround : RoundQueue p := hinv.round (by rwa [State.InRound,not_not.mp hstate])
      obtain ⟨q',o',hinit,hround'⟩ := initiateConsensus_roundQueue cfg
        (p := advanceState cfg p .void) true env hinv.segmented fun _ _ => hround.congr rfl rfl
      cases hinit.symm.trans h
      exact hround'.queueInv
    · cases h
      exact hinv
  cases e with
  | message d m env => exact processMessage_queueInv hinv h
  | prePrepareTimeout env => exact htimeout _ env (.inl rfl) h
  | postPrepareTimeout env => exact htimeout _ env (.inr rfl) h
  | messageQueued env =>
    simp only [Primary.step] at h
    split_ifs at h
    · cases h
      exact hinv
    · obtain ⟨q',o',hqueued,hinv'⟩ := onMessageQueued_queueInv cfg env hinv
      cases hqueued.symm.trans h
      exact hinv'
  | start transitioning env =>
    simp only [Primary.step,startConsensus] at h
    split_ifs at h with hstate htransition
    · cases h
      exact hinv
    · cases h
      exact ⟨hinv.segmented,fun hin => by simp [State.InRound] at hin⟩
    · obtain ⟨q',o',hinit,hround⟩ := initiateConsensus_roundQueue cfg
        (p := { p with
          requestQueue := p.requestQueue ++ [none]
          state := .void
          ongoing := true }) false env (hinv.segmented.append segmented_delimiter)
        fun hfalse => absurd hfalse Bool.false_ne_true
      cases hinit.symm.trans h
      exact hround.queueInv

theorem init_queueInv (tip : H) (sequence : BitVec 32) :
    QueueInv (init tip sequence : State H σ ρ) :=
  ⟨segmented_nil,fun hin => by rcases hin with hin | hin <;> cases hin⟩

theorem exec_queueInv {tip : H} {sequence : BitVec 32} {es : List (Event H σ ρ)}
    {log : List (Output H σ ρ)} (hexec : exec (step cfg) (init tip sequence) es = some (p,log)) :
    QueueInv p :=
  exec_preserves (I := fun _ => QueueInv) (fun _ _ _ _ _ h _ hstep => h.step hstep)
    (init_queueInv tip sequence) (along_true _ es) hexec

end Invariant

end LogosCore.Primary
