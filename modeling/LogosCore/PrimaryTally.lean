import LogosCore.BackupSafety
import LogosCore.Primary

/-!
# What the primary counts

The tallies of a primary against the messages it has counted since its last proposal. Prepares and
Commits are counted once per delegate, so every PostPrepare and PostCommit carries a quorum.
Rejections are not: a request is tallied exactly as long as no delegate answers a proposal twice
with a rejection among its answers.
-/

namespace LogosCore.Primary

open Finset Machine Quorum Subsets WeightedQuorum
open Thresholds (stakeOf voteOf)

variable {H σ ρ : Type} [DecidableEq H] [Zero H] [Inhabited σ] {cfg : Config H σ ρ}

section Property

/-- In both phases the tally is the primary's own weight and that of the distinct signers. -/
structure PrepareExact (cfg : Config H σ ρ) (p : State H σ ρ) : Prop where
  own : cfg.delegateId ∉ p.signers
  vote : p.prepareVote =
    (cfg.weights cfg.delegateId).voteWeight + ∑ d ∈ p.signers,(cfg.weights d).voteWeight
  stake : p.prepareStake =
    (cfg.weights cfg.delegateId).stakeWeight + ∑ d ∈ p.signers,(cfg.weights d).stakeWeight

/-- The weights of a request are sums over its supporting delegates and over disjoint rejecters. -/
structure SplitsInto (cfg : Config H σ ρ) (w : Weights DelegateId)
    (rejecters : Finset DelegateId) : Prop where
  disjoint : Disjoint w.supportingDelegates rejecters
  indirectVoteSupport : w.indirectVoteSupport = cfg.thresholds.voteOf w.supportingDelegates
  indirectStakeSupport : w.indirectStakeSupport = cfg.thresholds.stakeOf w.supportingDelegates
  rejectVote : w.rejectVote = cfg.thresholds.voteOf rejecters
  rejectStake : w.rejectStake = cfg.thresholds.stakeOf rejecters

/-- Every delegate counts for request `i` at most once: as a signer, a supporter or a rejecter. -/
def RequestCountedOnce (cfg : Config H σ ρ) (p : State H σ ρ) (i : ℕ) : Prop :=
  ∃ rejecters : Finset DelegateId,SplitsInto cfg (p.responseWeights i) rejecters ∧
    Disjoint p.signers (p.responseWeights i).supportingDelegates ∧ Disjoint p.signers rejecters

def NewEpochCountedOnce (cfg : Config H σ ρ) (p : State H σ ρ) : Prop :=
  ∃ rejecters : Finset DelegateId,p.neRejectVote = cfg.thresholds.voteOf rejecters ∧
    p.neRejectStake = cfg.thresholds.stakeOf rejecters

/-- A PostPrepare or PostCommit passes `ValidateQuorum` at every backup with the same weights. -/
def PassesQuorum (cfg : Config H σ ρ) : Output H σ ρ → Prop
  | .postPrepare _ m => ∀ backup,
      (onCurrentEpochSet backup cfg.weights).validateQuorum m.signature.map = true
  | .postCommit m => ∀ backup,
      (onCurrentEpochSet backup cfg.weights).validateQuorum m.signature.map = true
  | _ => True

/-- Messages come over the connections to the other delegates. -/
def FromRemote (cfg : Config H σ ρ) : Event H σ ρ → Prop
  | .message remote _ _ => remote ≠ cfg.delegateId
  | _ => True

/-- The messages counted since the last proposal. -/
def roundAnswers (log : List (Output H σ ρ)) : List (DelegateId × Message H σ) :=
  log.foldl (fun answers output =>
    match output with
    | .tallied remote m => answers ++ [(remote,m)]
    | .prePrepare _ => []
    | _ => answers) []

/-- No delegate answers twice with a rejection among its answers to a proposal. -/
def AnsweredOnce (answers : List (DelegateId × Message H σ)) : Prop :=
  answers.Pairwise fun a b => a.1 = b.1 →
    b.2.isRejection = false ∧ (a.2.isRejection = true → b.2.isCommit = true)

end Property

variable {answers : List (DelegateId × Message H σ)}

variable {d : DelegateId}

section Replay

variable (cfg)

/-- The weights of request `i` after the counted answers. -/
def respond (i : ℕ) (w : Weights DelegateId) (answer : DelegateId × Message H σ) :
    Weights DelegateId :=
  match answer.2 with
  | .rejection m =>
    if m.reason = .containsInvalidRequest then
      addResponse cfg answer.1 (m.rejectionMap.getD i false) w
    else w
  | _ => w

def replay (answers : List (DelegateId × Message H σ)) (i : ℕ) : Weights DelegateId :=
  answers.foldl (respond cfg i) {}

/-- The weight of the counted rejections because of a new epoch. -/
def newEpochAnswers (weight : DelegateId → BitVec 128) (answers : List (DelegateId × Message H σ)) :
    BitVec 128 :=
  answers.foldl (fun acc answer =>
    match answer.2 with
    | .rejection m => if m.reason = .newEpoch then acc + weight answer.1 else acc
    | _ => acc) 0

variable {cfg}

theorem replay_concat (answers : List (DelegateId × Message H σ)) (a : DelegateId × Message H σ)
    (i : ℕ) : replay cfg (answers ++ [a]) i = respond cfg i (replay cfg answers i) a := by
  simp [replay]

def HasRejected (answers : List (DelegateId × Message H σ)) (d : DelegateId) : Prop :=
  ∃ m,(d,.rejection m) ∈ answers

theorem HasRejected.concat (h : HasRejected answers d) (a : DelegateId × Message H σ) :
    HasRejected (answers ++ [a]) d := by
  obtain ⟨m,hm⟩ := h
  exact ⟨m,List.mem_append_left _ hm⟩

theorem hasRejected_concat (answers : List (DelegateId × Message H σ)) (d : DelegateId)
    (m : RejectionMessage H σ) : HasRejected (answers ++ [(d,.rejection m)]) d :=
  ⟨m,by simp⟩

theorem AnsweredOnce.not_hasRejected
    {m : RejectionMessage H σ} (h : AnsweredOnce (answers ++ [(d,.rejection m)])) :
    ¬HasRejected answers d := by
  rintro ⟨m',hm'⟩
  have hpair := (List.pairwise_append.mp h).2.2 _ hm' _ (List.mem_singleton_self _) rfl
  simp [Message.isRejection] at hpair

/-- Nobody answers with both a Prepare and a rejection. -/
theorem AnsweredOnce.prepare_rejection (h : AnsweredOnce answers) {m : StandardPhaseMessage H σ}
    {m' : RejectionMessage H σ} (hm : (d,.prepare m) ∈ answers)
    (hm' : (d,.rejection m') ∈ answers) : False := by
  induction answers with
  | nil => simp at hm
  | cons a answers ih =>
    obtain ⟨hhead,htail⟩ := List.pairwise_cons.mp h
    rcases List.mem_cons.mp hm with rfl | hm <;> rcases List.mem_cons.mp hm' with heq | hm'
    · cases heq
    · have hpair := (hhead _ hm' rfl).1
      cases hpair
    · rw [← heq] at hhead
      have hpair := (hhead _ hm rfl).2 rfl
      cases hpair
    · exact ih htail hm hm'

theorem splitsInto_empty : SplitsInto cfg {} ∅ :=
  ⟨by simp,by simp [voteOf],by simp [stakeOf],by simp [voteOf],by simp [stakeOf]⟩

/-- A delegate that is on neither side joins one of them. -/
theorem SplitsInto.addResponse {w : Weights DelegateId} {rejecters : Finset DelegateId}
    (h : SplitsInto cfg w rejecters) (hsup : d ∉ w.supportingDelegates)
    (hrej : d ∉ rejecters) (bit : Bool) :
    SplitsInto cfg (addResponse cfg d bit w) (if bit then insert d rejecters else rejecters) := by
  have hvote : ∀ {s : Finset DelegateId},d ∉ s →
      cfg.thresholds.voteOf (insert d s) = cfg.thresholds.voteOf s + (cfg.weights d).voteWeight :=
    fun hs => maskedSum_insert _ hs
  have hstake : ∀ {s : Finset DelegateId},d ∉ s → cfg.thresholds.stakeOf (insert d s) =
        cfg.thresholds.stakeOf s + (cfg.weights d).stakeWeight :=
    fun hs => maskedSum_insert _ hs
  obtain ⟨hdisj,hiv,his,hrv,hrs⟩ := h
  cases bit with
  | false =>
    exact ⟨disjoint_insert_left.mpr ⟨hrej,hdisj⟩,(congrArg (· + _) hiv).trans (hvote hsup).symm,
      (congrArg (· + _) his).trans (hstake hsup).symm,hrv,hrs⟩
  | true =>
    exact ⟨disjoint_insert_right.mpr ⟨hsup,hdisj⟩,hiv,his,
      (congrArg (· + _) hrv).trans (hvote hrej).symm,
      (congrArg (· + _) hrs).trans (hstake hrej).symm⟩

variable (cfg) in
/-- If no delegate answers twice, the responses of a request split into delegates that rejected. -/
theorem replay_splitsInto (h : AnsweredOnce answers) (i : ℕ) :
    ∃ rejecters : Finset DelegateId,SplitsInto cfg (replay cfg answers i) rejecters ∧
      ∀ d,d ∈ (replay cfg answers i).supportingDelegates ∨ d ∈ rejecters →
        HasRejected answers d := by
  induction answers using List.reverseRecOn with
  | nil => exact ⟨∅,splitsInto_empty,by simp [replay]⟩
  | append_singleton answers a ih =>
    obtain ⟨rejecters,hsplit,hmem⟩ := ih (List.pairwise_append.mp h).1
    have hold : ∀ d,d ∈ (replay cfg answers i).supportingDelegates ∨ d ∈ rejecters →
        HasRejected (answers ++ [a]) d := fun d hd => (hmem d hd).concat a
    rw [replay_concat]
    generalize replay cfg answers i = w at hsplit hmem hold ⊢
    obtain ⟨d,m⟩ := a
    cases m with
    | prepare m => exact ⟨rejecters,hsplit,hold⟩
    | commit m => exact ⟨rejecters,hsplit,hold⟩
    | rejection m =>
      by_cases hreason : m.reason = .containsInvalidRequest
      · have hnew : ¬HasRejected answers d := h.not_hasRejected
        have hsup : d ∉ w.supportingDelegates := fun hd => hnew (hmem d (.inl hd))
        have hrej : d ∉ rejecters := fun hd => hnew (hmem d (.inr hd))
        simp only [respond,hreason,if_true]
        refine ⟨_,hsplit.addResponse hsup hrej _,fun e he => ?_⟩
        by_cases hed : e = d
        · rw [hed]
          exact hasRejected_concat _ _ _
        · refine hold e ?_
          generalize m.rejectionMap.getD i false = bit at he
          cases bit <;> simpa [addResponse,hed] using he
      · simp only [respond,hreason,if_false]
        exact ⟨rejecters,hsplit,hold⟩

theorem newEpochAnswers_concat (weight : DelegateId → BitVec 128)
    (answers : List (DelegateId × Message H σ)) (d : DelegateId) (m : Message H σ) :
    newEpochAnswers weight (answers ++ [(d,m)]) = match m with
      | .rejection m =>
        if m.reason = .newEpoch then newEpochAnswers weight answers + weight d
        else newEpochAnswers weight answers
      | _ => newEpochAnswers weight answers := by
  simp only [newEpochAnswers,List.foldl_append,List.foldl_cons,List.foldl_nil]

/-- If no delegate answers twice, the rejections because of a new epoch come from distinct
delegates. -/
theorem newEpochAnswers_exact (h : AnsweredOnce answers) :
    ∃ rejecters : Finset DelegateId,(∀ d ∈ rejecters,HasRejected answers d) ∧
      ∀ weight,newEpochAnswers weight answers = maskedSum weight rejecters := by
  induction answers using List.reverseRecOn with
  | nil => exact ⟨∅,by simp,fun weight => by simp [newEpochAnswers]⟩
  | append_singleton answers a ih =>
    obtain ⟨rejecters,hmem,hsum⟩ := ih (List.pairwise_append.mp h).1
    have hold : ∀ d ∈ rejecters,HasRejected (answers ++ [a]) d := fun d hd => (hmem d hd).concat a
    obtain ⟨d,m⟩ := a
    simp only [newEpochAnswers_concat]
    cases m with
    | prepare m => exact ⟨rejecters,hold,hsum⟩
    | commit m => exact ⟨rejecters,hold,hsum⟩
    | rejection m =>
      by_cases hreason : m.reason = .newEpoch
      · have hnew : ¬HasRejected answers d := h.not_hasRejected
        have hd : d ∉ rejecters := fun hd => hnew (hmem d hd)
        refine ⟨insert d rejecters,fun e he => ?_,fun weight => ?_⟩
        · rcases mem_insert.mp he with rfl | he
          · exact hasRejected_concat _ _ _
          · exact hold e he
        · simp only [hreason,if_true]
          rw [maskedSum_insert _ hd,hsum]
      · simp only [hreason,if_false]
        exact ⟨rejecters,hold,hsum⟩

end Replay

section Invariant

variable {log : List (Output H σ ρ)} {p q : State H σ ρ}

@[simp] theorem roundAnswers_tallied (log : List (Output H σ ρ)) (d : DelegateId)
    (m : Message H σ) : roundAnswers (log ++ [.tallied d m]) = roundAnswers log ++ [(d,m)] := by
  simp [roundAnswers]

@[simp] theorem roundAnswers_prePrepare (log : List (Output H σ ρ)) (b : PrePrepare H σ ρ) :
    roundAnswers (log ++ [.prePrepare b]) = [] := by
  simp [roundAnswers]

/-- How the tallies of a primary relate to the messages counted since its last proposal. -/
structure Tallied (cfg : Config H σ ρ) (log : List (Output H σ ρ)) (p : State H σ ρ) : Prop where
  prepare : p.state = .prePrepare ∨ p.state = .postPrepare → PrepareExact cfg p
  signed : p.state = .prePrepare → ∀ d ∈ p.signers,∃ m,(d,.prepare m) ∈ roundAnswers log
  responses : p.state = .prePrepare → ∀ i < p.currentBatch.body.length,
    p.responseWeights i = replay cfg (roundAnswers log) i
  cleared : p.state ≠ .prePrepare → p.responseWeights = fun _ => {}
  newEpoch : p.stateChanging = false →
    p.neRejectVote = newEpochAnswers (fun d => (cfg.weights d).voteWeight) (roundAnswers log) ∧
      p.neRejectStake = newEpochAnswers (fun d => (cfg.weights d).stakeWeight) (roundAnswers log)
  yielded : p.stateChanging = true → p.neRejectVote = 0 ∧ p.neRejectStake = 0
  sent : ∀ output ∈ log,PassesQuorum cfg output

variable (cfg) in
/-- A delegate that has signed already is not counted again, another one joins the signers. -/
theorem tallyStandardPhaseMessage_signers (p : State H σ ρ) (d : DelegateId) (sig : σ) :
    (tallyStandardPhaseMessage cfg p d sig).signers = insert d p.signers := by
  simp only [tallyStandardPhaseMessage]
  split_ifs with hsigned
  · exact (insert_eq_of_mem (by simp [State.signers,hsigned])).symm
  · ext e
    by_cases he : e = d
    · simp [State.signers,he]
    · simp [State.signers,he]

theorem PrepareExact.tallyStandardPhaseMessage (h : PrepareExact cfg p)
    (hd : d ≠ cfg.delegateId) (sig : σ) :
    PrepareExact cfg (tallyStandardPhaseMessage cfg p d sig) := by
  refine ⟨?_,?_,?_⟩
  · rw [tallyStandardPhaseMessage_signers,mem_insert,not_or]
    exact ⟨hd.symm,h.own⟩
  · rw [tallyStandardPhaseMessage_signers]
    simp only [Primary.tallyStandardPhaseMessage]
    split_ifs with hsigned
    · rw [insert_eq_of_mem (by simp [State.signers,hsigned]),h.vote]
    · rw [sum_insert (by simp [State.signers,hsigned])]
      simp only [h.vote]
      ac_rfl
  · rw [tallyStandardPhaseMessage_signers]
    simp only [Primary.tallyStandardPhaseMessage]
    split_ifs with hsigned
    · rw [insert_eq_of_mem (by simp [State.signers,hsigned]),h.stake]
    · rw [sum_insert (by simp [State.signers,hsigned])]
      simp only [h.stake]
      ac_rfl

/-- A rejection touches only the response and new-epoch weights and what they decide. -/
theorem onRejection_some {m : RejectionMessage H σ} (h : onRejection cfg p d m = some q) :
    (∃ flag weights hashes vote stake,q = { p with
      reproposeSubset := flag,responseWeights := weights,hashes := hashes,
      neRejectVote := vote,neRejectStake := stake }) ∧
    (∀ i < p.currentBatch.body.length,
      q.responseWeights i = respond cfg i (p.responseWeights i) (d,.rejection m)) ∧
    q.neRejectVote = (if m.reason = .newEpoch then p.neRejectVote + (cfg.weights d).voteWeight
      else p.neRejectVote) ∧
    q.neRejectStake = (if m.reason = .newEpoch then p.neRejectStake + (cfg.weights d).stakeWeight
      else p.neRejectStake) := by
  simp only [onRejection] at h
  split at h
  · next hreason =>
    split_ifs at h
    cases h
    refine ⟨⟨_,_,_,_,_,rfl⟩,fun i hi => ?_,?_,?_⟩
    · simp [respond,hreason,eraseSettled,hi]
    · simp [hreason,eraseSettled]
    · simp [hreason,eraseSettled]
  · next hreason =>
    cases h
    exact ⟨⟨_,_,_,_,_,rfl⟩,fun i _ => by simp [respond,hreason],by simp [hreason],by simp [hreason]⟩
  · next hinvalid hepoch =>
    cases h
    exact ⟨⟨_,_,_,_,_,rfl⟩,fun i _ => (if_neg hinvalid).symm,(if_neg hepoch).symm,
      (if_neg hepoch).symm⟩

theorem Tallied.signing {m : Message H σ} {sig : σ} {hashes : Finset H}
    (h : Tallied cfg log p) (hd : d ≠ cfg.delegateId) (hm : m.isRejection = false)
    (hsig : p.state = .prePrepare → ∃ m',m = .prepare m')
    (hq : q = { tallyStandardPhaseMessage cfg p d sig with hashes }) :
    Tallied cfg (log ++ [.tallied d m]) q := by
  obtain ⟨vote,stake,signatures,hframe⟩ := tallyStandardPhaseMessage_frame cfg p d sig
  have hsigners : q.signers = insert d p.signers := by
    rw [hq,← tallyStandardPhaseMessage_signers cfg p d sig]
    rfl
  have hstate : q.state = p.state := by rw [hq,hframe]
  have hbatch : q.currentBatch = p.currentBatch := by rw [hq,hframe]
  have hweights : q.responseWeights = p.responseWeights := by rw [hq,hframe]
  have hchanged : q.stateChanging = p.stateChanging := by rw [hq,hframe]
  have hvote : q.neRejectVote = p.neRejectVote := by rw [hq,hframe]
  have hstake : q.neRejectStake = p.neRejectStake := by rw [hq,hframe]
  refine ⟨?_,?_,?_,?_,?_,?_,?_⟩
  · intro hphase
    rw [hstate] at hphase
    have hexact := (h.prepare hphase).tallyStandardPhaseMessage hd sig
    rw [hq]
    exact ⟨hexact.own,hexact.vote,hexact.stake⟩
  · intro hpre e he
    rw [hstate] at hpre
    rw [roundAnswers_tallied]
    rw [hsigners] at he
    rcases mem_insert.mp he with rfl | he
    · obtain ⟨m',rfl⟩ := hsig hpre
      exact ⟨m',by simp⟩
    · obtain ⟨m',hm'⟩ := h.signed hpre e he
      exact ⟨m',List.mem_append_left _ hm'⟩
  · intro hpre i hi
    rw [hstate] at hpre
    rw [hbatch] at hi
    rw [hweights,h.responses hpre i hi,roundAnswers_tallied,replay_concat]
    cases m <;> first | rfl | cases hm
  · intro hpre
    rw [hstate] at hpre
    rw [hweights,h.cleared hpre]
  · intro hchanging
    rw [hchanged] at hchanging
    rw [hvote,hstake,roundAnswers_tallied,newEpochAnswers_concat,newEpochAnswers_concat]
    cases m with
    | rejection => cases hm
    | prepare => exact h.newEpoch hchanging
    | commit => exact h.newEpoch hchanging
  · intro hchanging
    rw [hchanged] at hchanging
    rw [hvote,hstake]
    exact h.yielded hchanging
  · intro output houtput
    rcases List.mem_append.mp houtput with hold | hnew
    · exact h.sent output hold
    · rw [List.mem_singleton.mp hnew]
      trivial

theorem Tallied.rejecting {m : RejectionMessage H σ} (h : Tallied cfg log p)
    (hpre : p.state = .prePrepare) (hchanging : p.stateChanging = false)
    (hq : onRejection cfg p d m = some q) : Tallied cfg (log ++ [.tallied d (.rejection m)]) q := by
  obtain ⟨⟨flag,weights,hashes,vote,stake,hframe⟩,hresponses,hvote,hstake⟩ := onRejection_some hq
  have hstate : q.state = p.state := by rw [hframe]
  have hbatch : q.currentBatch = p.currentBatch := by rw [hframe]
  have hsigners : q.signers = p.signers := by
    rw [hframe]
    rfl
  have hchanged : q.stateChanging = p.stateChanging := by rw [hframe]
  have hprepare := h.prepare (.inl hpre)
  have hepoch := h.newEpoch hchanging
  refine ⟨?_,?_,?_,?_,?_,?_,?_⟩
  · intro _
    exact ⟨by rw [hsigners]; exact hprepare.own,by rw [hsigners,hframe]; exact hprepare.vote,
      by rw [hsigners,hframe]; exact hprepare.stake⟩
  · intro _ e he
    rw [hsigners] at he
    obtain ⟨m',hm'⟩ := h.signed hpre e he
    rw [roundAnswers_tallied]
    exact ⟨m',List.mem_append_left _ hm'⟩
  · intro _ i hi
    rw [hbatch] at hi
    rw [hresponses i hi,h.responses hpre i hi,roundAnswers_tallied,replay_concat]
  · intro hne
    rw [hstate] at hne
    exact absurd hpre hne
  · intro _
    rw [hvote,hstake,hepoch.1,hepoch.2,roundAnswers_tallied,newEpochAnswers_concat,
      newEpochAnswers_concat]
    exact ⟨rfl,rfl⟩
  · intro hch
    rw [hchanged,hchanging] at hch
    cases hch
  · intro output houtput
    rcases List.mem_append.mp houtput with hold | hnew
    · exact h.sent output hold
    · rw [List.mem_singleton.mp hnew]
      trivial

theorem Tallied.count {m : Message H σ} (h : Tallied cfg log p)
    (hc : Counted cfg p d m q) (hd : d ≠ cfg.delegateId) :
    Tallied cfg (log ++ [.tallied d m]) q := by
  cases m with
  | prepare m =>
    obtain ⟨hashes,hframe⟩ := tallyPrepareMessage_frame cfg
      (tallyStandardPhaseMessage cfg p d m.signature)
    exact h.signing hd rfl (fun _ => ⟨m,rfl⟩) ((Option.some.inj hc.tally).symm.trans hframe)
  | commit m =>
    refine h.signing hd rfl (fun hpre => ?_) (Option.some.inj hc.tally).symm
    have hpost : p.state = .postPrepare := hc.state
    rw [hpre] at hpost
    cases hpost
  | rejection m => exact h.rejecting hc.state hc.stateChanging hc.tally

theorem Fresh.prepareExact (h : Fresh cfg p) : PrepareExact cfg p where
  own := by simp [h.signers]
  vote := by
    rw [h.prepareVote,h.signers,sum_empty,add_zero]
    rfl
  stake := by
    rw [h.prepareStake,h.signers,sum_empty,add_zero]
    rfl

theorem Proposed.tallied {p0 : State H σ ρ} {reproposing : Bool} {b : PrePrepare H σ ρ}
    (h : Proposed cfg p0 reproposing p b) (hsent : ∀ output ∈ log,PassesQuorum cfg output) :
    Tallied cfg (log ++ [.prePrepare b]) p := by
  refine ⟨fun _ => h.fresh.prepareExact,fun _ d hd => ?_,fun _ i _ => ?_,fun hne => ?_,fun _ => ?_,
    fun _ => ⟨h.neRejectVote,h.neRejectStake⟩,fun output houtput => ?_⟩
  · rw [h.fresh.signers] at hd
    exact absurd hd (notMem_empty d)
  · rw [h.fresh.responseWeights,roundAnswers_prePrepare]
    rfl
  · exact absurd h.state hne
  · rw [h.neRejectVote,h.neRejectStake,roundAnswers_prePrepare]
    exact ⟨rfl,rfl⟩
  · rcases List.mem_append.mp houtput with hold | hnew
    · exact hsent output hold
    · rw [List.mem_singleton.mp hnew]
      trivial

/-- After a phase the tallies start afresh; only the new-epoch weights stay. -/
theorem Tallied.advance {log' : List (Output H σ ρ)} (h : Tallied cfg log p)
    (hchanging : p.stateChanging = false) (hfresh : Fresh cfg q) (hstate : q.state ≠ .prePrepare)
    (hvote : q.neRejectVote = p.neRejectVote) (hstake : q.neRejectStake = p.neRejectStake)
    (hanswers : roundAnswers log' = roundAnswers log)
    (hsent : ∀ output ∈ log',PassesQuorum cfg output) : Tallied cfg log' q := by
  refine ⟨fun _ => hfresh.prepareExact,fun hpre => absurd hpre hstate,
    fun hpre => absurd hpre hstate,fun _ => hfresh.responseWeights,fun _ => ?_,fun hch => ?_,hsent⟩
  · rw [hvote,hstake,hanswers]
    exact h.newEpoch hchanging
  · rw [hfresh.stateChanging] at hch
    cases hch

theorem PrepareExact.validateQuorum (h : PrepareExact cfg p)
    (hquorum : cfg.thresholds.reachedQuorum p.prepareVote p.prepareStake = true)
    (backup : DelegateId) :
    (onCurrentEpochSet backup cfg.weights).validateQuorum (insert cfg.delegateId p.signers) =
      true := by
  have hvote : cfg.thresholds.voteOf (insert cfg.delegateId p.signers) = p.prepareVote := by
    rw [voteOf,maskedSum_eq_sum,sum_insert h.own,h.vote]
    rfl
  have hstake : cfg.thresholds.stakeOf (insert cfg.delegateId p.signers) = p.prepareStake := by
    rw [stakeOf,maskedSum_eq_sum,sum_insert h.own,h.stake]
    rfl
  rw [← hvote,← hstake] at hquorum
  exact hquorum

theorem aggregateSignature_update (p : State H σ ρ) (sig : σ) :
    (aggregateSignature cfg (Function.update p.signatures cfg.delegateId (some sig))).map =
      insert cfg.delegateId p.signers := by
  ext d
  by_cases hd : d = cfg.delegateId
  · simp [aggregateSignature,hd]
  · simp [aggregateSignature,State.signers,hd]

theorem Tallied.step {e : Event H σ ρ} {o : List (Output H σ ρ)} (h : Tallied cfg log p)
    (hremote : FromRemote cfg e) (hstep : step cfg p e = some (q,o)) :
    Tallied cfg (log ++ o) q := by
  cases step_effect hstep with
  | ignore =>
    rw [List.append_nil]
    exact h
  | await hstate =>
    rw [List.append_nil]
    refine ⟨fun hphase => ?_,fun hpre => ?_,fun hpre => ?_,fun _ => ?_,h.newEpoch,h.yielded,h.sent⟩
    · rcases hphase with hphase | hphase <;> cases hphase
    · cases hpre
    · cases hpre
    · exact h.cleared (by simp [hstate])
  | count hcounted => exact h.count hcounted hremote
  | @postPrepare remote m env p1 p2 hcounted hquorum hown =>
    have h1 := h.count hcounted hremote
    have hsame := hcounted.sameRound
    have hexact : PrepareExact cfg p1 := h1.prepare (.inl (hsame.state.trans hcounted.state))
    cases hown
    rw [List.append_cons]
    refine h1.advance (hsame.stateChanging.trans hcounted.stateChanging) (advanceState_fresh _ _)
      (by simp [sendPostPrepare,advanceState]) rfl rfl (by simp [roundAnswers])
      (fun output houtput => ?_)
    rcases List.mem_append.mp houtput with hold | hnew
    · exact h1.sent output hold
    · rw [List.mem_singleton.mp hnew]
      intro backup
      rw [aggregateSignature_update]
      exact hexact.validateQuorum hquorum backup
  | @postCommit remote m env p1 p2 q block o' hcounted hquorum hown hnext =>
    have h1 := h.count hcounted hremote
    have hsame := hcounted.sameRound
    have hexact : PrepareExact cfg p1 := h1.prepare (.inr (hsame.state.trans hcounted.state))
    cases hown
    have hsent : ∀ output ∈ log ++ [.tallied remote (.commit m)] ++
        [.postCommit ⟨p1.prePrepareHash,aggregateSignature cfg (Function.update p1.signatures
          cfg.delegateId (some (cfg.sign p1.postPrepareHash)))⟩,.store block],
        PassesQuorum cfg output := by
      intro output houtput
      rcases List.mem_append.mp houtput with hold | hnew
      · exact h1.sent output hold
      · rcases List.mem_pair.mp hnew with rfl | rfl
        · intro backup
          rw [aggregateSignature_update]
          exact hexact.validateQuorum hquorum backup
        · trivial
    cases hnext with
    | idle hstate hfresh _ hvote hstake _ =>
      rw [List.append_cons]
      exact h1.advance (hsame.stateChanging.trans hcounted.stateChanging) hfresh
        (by simp [hstate]) hvote hstake (by simp [roundAnswers]) hsent
    | propose hongoing hproposed =>
      have hlog := hproposed.tallied hsent
      simpa using hlog
  | yield hcounted hleft =>
    have h1 := h.count hcounted hremote
    subst hleft
    refine ⟨fun hphase => ?_,h1.signed,h1.responses,h1.cleared,fun hch => ?_,
      fun _ => ⟨rfl,rfl⟩,h1.sent⟩
    · have hexact := h1.prepare hphase
      exact ⟨hexact.own,hexact.vote,hexact.stake⟩
    · cases hch
  | subset hcounted _ _ _ _ _ hproposed =>
    rw [List.append_cons]
    exact hproposed.tallied (h.count hcounted hremote).sent
  | repropose _ hproposed => exact hproposed.tallied h.sent
  | propose _ _ hproposed => exact hproposed.tallied h.sent

theorem init_tallied (tip : H) (sequence : BitVec 32) : Tallied cfg [] (init tip sequence) where
  prepare hphase := by rcases hphase with hphase | hphase <;> cases hphase
  signed hpre := nomatch hpre
  responses hpre := nomatch hpre
  cleared _ := rfl
  newEpoch _ := ⟨rfl,rfl⟩
  yielded _ := ⟨rfl,rfl⟩
  sent := by simp

theorem Tallied.requestCountedOnce (h : Tallied cfg log p) (honce : AnsweredOnce (roundAnswers log))
    {i : ℕ} (hi : i < p.currentBatch.body.length) : RequestCountedOnce cfg p i := by
  by_cases hpre : p.state = .prePrepare
  · obtain ⟨rejecters,hsplit,hmem⟩ := replay_splitsInto cfg honce i
    rw [← h.responses hpre i hi] at hsplit hmem
    -- a signer's Prepare and a rejection would be two answers
    have hsigner : ∀ d ∈ p.signers,¬HasRejected (roundAnswers log) d := by
      rintro d hd ⟨m,hm⟩
      obtain ⟨m',hm'⟩ := h.signed hpre d hd
      exact honce.prepare_rejection hm' hm
    exact ⟨rejecters,hsplit,disjoint_left.mpr fun d hd hd' => hsigner d hd (hmem d (.inl hd')),
      disjoint_left.mpr fun d hd hd' => hsigner d hd (hmem d (.inr hd'))⟩
  · refine ⟨∅,?_,?_,?_⟩
    · rw [h.cleared hpre]
      exact splitsInto_empty
    · simp [h.cleared hpre]
    · simp

theorem Tallied.newEpochCountedOnce (h : Tallied cfg log p)
    (honce : AnsweredOnce (roundAnswers log)) : NewEpochCountedOnce cfg p := by
  cases hchanging : p.stateChanging with
  | false =>
    obtain ⟨rejecters,-,hsum⟩ := newEpochAnswers_exact honce
    obtain ⟨hvote,hstake⟩ := h.newEpoch hchanging
    exact ⟨rejecters,hvote.trans (hsum _),hstake.trans (hsum _)⟩
  | true =>
    obtain ⟨hvote,hstake⟩ := h.yielded hchanging
    exact ⟨∅,by simp [hvote,voteOf],by simp [hstake,stakeOf]⟩

end Invariant

/-- The Prepare and Commit tallies are exact and what is sent carries a quorum; if no delegate
answers a proposal twice with a rejection among its answers, each counts once for every request and
for the new epoch. -/
theorem exec_prepareExact_countedOnce (tip : H) (sequence : BitVec 32) {es : List (Event H σ ρ)}
    {p : State H σ ρ} {log : List (Output H σ ρ)} (hremote : ∀ e ∈ es,FromRemote cfg e)
    (hexec : exec (step cfg) (init tip sequence) es = some (p,log)) :
    (p.state = .prePrepare ∨ p.state = .postPrepare → PrepareExact cfg p) ∧
      (∀ output ∈ log,PassesQuorum cfg output) ∧
      (AnsweredOnce (roundAnswers log) →
        (∀ i < p.currentBatch.body.length,RequestCountedOnce cfg p i) ∧
          NewEpochCountedOnce cfg p) := by
  have h : Tallied cfg log p := exec_preserves (I := Tallied cfg)
    (fun _ _ _ _ _ h hfrom hstep => h.step hfrom hstep) (init_tallied tip sequence)
    (along_of_forall fun e he _ => hremote e he) hexec
  exact ⟨h.prepare,h.sent,fun honce =>
    ⟨fun i hi => h.requestCountedOnce honce hi,h.newEpochCountedOnce honce⟩⟩

section Examples

/-- Delegate 0 of 32 is the primary; all weigh 3 but the first backup, which weighs 1. -/
def unevenConfig : Config ℕ Unit ℕ where
  delegateId := 0
  epochNumber := 0
  weights d := if d = 1 then ⟨1,1⟩ else ⟨3,3⟩
  hashing := ⟨id,Backup.pairDigest,fun h _ => h + 1⟩
  requestHash := id
  rejectionHash m := m.preprepareHash
  sign _ := ()
  verify _ _ _ := true
  aggregate _ := ()
  indexOrder s := s.sort
  nodup_indexOrder s := s.sort_nodup _
  mem_indexOrder s i := s.mem_sort _

def envWith (now : BitVec 64) (due : List ℕ) : Surroundings ℕ := ⟨now,due,fun _ => false,true⟩

def firstBatch : PrePrepare ℕ Unit ℕ :=
  { (emptyPrePrepare 0 : PrePrepare ℕ Unit ℕ) with primaryDelegate := 0,body := [7] }

def rejectSeven : Message ℕ Unit :=
  .rejection ⟨unevenConfig.hash firstBatch,.containsInvalidRequest,[true],()⟩

def prepareFirst : Message ℕ Unit := .prepare ⟨unevenConfig.hash firstBatch,()⟩

/-- Backup 1 rejects the request, backup 2 prepares the batch. -/
def mixedAnswers : List (Event ℕ Unit ℕ) :=
  [.start true (envWith 0 []),.messageQueued (envWith 0 [7]),
    .message 1 rejectSeven (envWith 0 []),.message 2 prepareFirst (envWith 0 [])]

/-- The same rejection of backup 1 arrives directly and by p2p. -/
def repeatedRejection : List (Event ℕ Unit ℕ) :=
  [.start true (envWith 0 []),.messageQueued (envWith 0 [7]),
    .message 1 rejectSeven (envWith 0 []),.message 1 rejectSeven (envWith 0 [])]

theorem answeredOnce_of_kinds
    (h : (answers.map fun a => (a.1,a.2.isRejection,a.2.isCommit)).Pairwise fun a b =>
      a.1 = b.1 → b.2.1 = false ∧ (a.2.1 = true → b.2.2 = true)) : AnsweredOnce answers :=
  List.pairwise_map.mp h

theorem mixedAnswers_countedOnce :
    ∃ p log,exec (step unevenConfig) (init 0 0) mixedAnswers = some (p,log) ∧
      p.currentBatch.body = [7] ∧ RequestCountedOnce unevenConfig p 0 := by
  have hrun : (exec (step unevenConfig) (init 0 0) mixedAnswers).map (fun r =>
      (r.1.currentBatch.body,(roundAnswers r.2).map fun a =>
        (a.1,a.2.isRejection,a.2.isCommit))) =
      some ([7],[(1,true,false),(2,false,false)]) := by decide +kernel
  obtain ⟨⟨p,log⟩,hexec,heq⟩ := Option.map_eq_some_iff.mp hrun
  obtain ⟨hbody,hkinds⟩ := Prod.mk.inj heq
  have honce : AnsweredOnce (roundAnswers log) := answeredOnce_of_kinds (by rw [hkinds]; decide)
  have hremote : ∀ e ∈ mixedAnswers,FromRemote unevenConfig e := by
    simp [mixedAnswers,FromRemote,unevenConfig]
  have h := (exec_prepareExact_countedOnce 0 0 hremote hexec).2.2 honce
  exact ⟨p,log,hexec,hbody,h.1 0 (by rw [hbody]; decide)⟩

/-- No set of delegates weighs 2. -/
theorem unevenConfig_voteOf_ne (rejecters : Finset DelegateId) :
    unevenConfig.thresholds.voteOf rejecters ≠ 2 := by
  intro h
  have hnat := congrArg BitVec.toNat h
  rw [voteOf,maskedSum_toNat] at hnat
  have hweight : ∀ d : DelegateId,(unevenConfig.weights d).voteWeight.toNat =
      if d = 1 then 1 else 3 := by decide
  have hsum : ∑ d ∈ rejecters,(unevenConfig.weights d).voteWeight.toNat =
      3 * (rejecters.erase 1).card + if 1 ∈ rejecters then 1 else 0 := by
    have hrest : ∑ d ∈ rejecters.erase 1,(unevenConfig.weights d).voteWeight.toNat =
        3 * (rejecters.erase 1).card := by
      rw [sum_congr rfl fun d hd => (hweight d).trans (if_neg (ne_of_mem_erase hd)),
        sum_const,smul_eq_mul,mul_comm]
    by_cases hmem : 1 ∈ rejecters
    · rw [← sum_erase_add _ _ hmem,hrest,hweight,if_pos rfl,if_pos hmem]
    · rw [if_neg hmem,add_zero,← hrest,erase_eq_of_notMem hmem]
  have hcard : (rejecters.erase 1).card ≤ 32 := card_le_univ _
  have hthresholds : ∑ d ∈ rejecters,((unevenConfig.thresholds.weights d).voteWeight).toNat =
      ∑ d ∈ rejecters,(unevenConfig.weights d).voteWeight.toNat := rfl
  rw [hthresholds,hsum] at hnat
  have htwo : (2 : BitVec 128).toNat = 2 := rfl
  rw [htwo] at hnat
  split_ifs at hnat <;> omega

/-- The weight of one rejection is counted twice. -/
theorem repeatedRejection_countedTwice :
    ∃ p log,exec (step unevenConfig) (init 0 0) repeatedRejection = some (p,log) ∧
      (∀ e ∈ repeatedRejection,FromRemote unevenConfig e) ∧ p.state = .prePrepare ∧
      0 < p.currentBatch.body.length ∧ ¬RequestCountedOnce unevenConfig p 0 := by
  have hrun : (exec (step unevenConfig) (init 0 0) repeatedRejection).map (fun r =>
      (r.1.state,r.1.currentBatch.body,(r.1.responseWeights 0).rejectVote)) =
      some (.prePrepare,[7],2) := by decide +kernel
  obtain ⟨⟨p,log⟩,hexec,heq⟩ := Option.map_eq_some_iff.mp hrun
  simp only [Prod.mk.injEq] at heq
  obtain ⟨hstate,hbody,hvote⟩ := heq
  have hremote : ∀ e ∈ repeatedRejection,FromRemote unevenConfig e := by
    simp [repeatedRejection,FromRemote,unevenConfig]
  refine ⟨p,log,hexec,hremote,hstate,by rw [hbody]; decide,?_⟩
  rintro ⟨rejecters,hsplit,-⟩
  exact unevenConfig_voteOf_ne rejecters (hsplit.rejectVote.symm.trans hvote)

end Examples

end LogosCore.Primary
