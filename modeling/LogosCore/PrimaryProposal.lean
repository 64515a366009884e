import LogosCore.PrimaryTally

/-!
# One proposal per sequence number

Once a primary has sent a PostPrepare, a timeout makes it propose the same batch again, unless it
has counted a rejection of an invalid request: that flag outlives the round it was set in, and the
next timeout then builds a new batch for the same sequence number.
-/

namespace LogosCore.Primary

open List Machine Quorum

variable {H σ ρ : Type} [DecidableEq H] [Zero H] [Inhabited σ] {cfg : Config H σ ρ}

/-- A PostPrepare that is not followed by a PostCommit yet. -/
def OpenIn (log : List (Output H σ ρ)) (s : BitVec 32) (m : PostPhaseMessage H σ) : Prop :=
  ∃ l1 l2,log = l1 ++ .postPrepare s m :: l2 ∧ ∀ m',.postCommit m' ∉ l2

/-- After a PostPrepare, every proposal with its sequence number has its hash, until the PostCommit.
-/
def KeepsProposal (cfg : Config H σ ρ) (log : List (Output H σ ρ)) : Prop :=
  ∀ l1 b l2,log = l1 ++ .prePrepare b :: l2 →
    ∀ s m,OpenIn l1 s m → b.sequence = s → cfg.hash b = m.preprepareHash

/-- A rejection that asks for a re-proposal of subsets. -/
def AsksForSubset (m : Message H σ) : Prop :=
  ∃ r,m = .rejection r ∧ r.reason = .containsInvalidRequest

/-- No invalid request is reported between the proposal of a PostPrepare and its PostCommit. -/
def Undisturbed (log : List (Output H σ ρ)) : Prop :=
  ∀ l1 s m l2,log = l1 ++ .postPrepare s m :: l2 →
    (∀ answer ∈ roundAnswers l1,¬AsksForSubset answer.2) ∧
    ∀ l3 d m',(∀ m'',.postCommit m'' ∉ l3) → AsksForSubset m' → ¬(l3 ++ [.tallied d m']) <+: l2

section Logs

variable {log log' : List (Output H σ ρ)} {s : BitVec 32} {m : PostPhaseMessage H σ}

/-- How an output changes the open PostPrepares. -/
theorem openIn_concat {output : Output H σ ρ} (h : OpenIn (log ++ [output]) s m) :
    (OpenIn log s m ∧ ∀ m',output ≠ .postCommit m') ∨ output = .postPrepare s m := by
  obtain ⟨l1,l2,heq,hopen⟩ := h
  rcases eq_nil_or_concat l2 with rfl | ⟨l2',last,rfl⟩
  · have hlast := append_inj_right' heq rfl
    exact .inr (singleton_inj.mp hlast)
  · have heq' : log ++ [output] = (l1 ++ .postPrepare s m :: l2') ++ [last] := by simpa using heq
    have hlog := append_inj_left' heq' rfl
    have hlast := singleton_inj.mp (append_inj_right' heq' rfl)
    refine .inl ⟨⟨l1,l2',hlog,fun m' hm' => hopen m' (by simp [hm'])⟩,fun m' hm' => ?_⟩
    exact hopen m' (by simp [← hlast,hm'])

theorem keepsProposal_concat {output : Output H σ ρ} (h : KeepsProposal cfg log)
    (houtput : ∀ b,output = .prePrepare b → ∀ s m,OpenIn log s m → b.sequence = s →
      cfg.hash b = m.preprepareHash) : KeepsProposal cfg (log ++ [output]) := by
  intro l1 b l2 heq
  rcases eq_nil_or_concat l2 with rfl | ⟨l2',last,rfl⟩
  · have hlog := append_inj_left' heq rfl
    have hlast := singleton_inj.mp (append_inj_right' heq rfl)
    rw [← hlog]
    exact houtput b hlast
  · have heq' : log ++ [output] = (l1 ++ .prePrepare b :: l2') ++ [last] := by simpa using heq
    exact h l1 b l2' (append_inj_left' heq' rfl)

theorem Undisturbed.of_append (h : Undisturbed (log ++ log')) : Undisturbed log := by
  intro l1 s m l2 heq
  have hext := h l1 s m (l2 ++ log') (by rw [heq]; simp)
  exact ⟨hext.1,fun l3 d m' hopen hask hpre =>
    hext.2 l3 d m' hopen hask (hpre.trans (prefix_append _ _))⟩

theorem mem_roundAnswers_append {answer : DelegateId × Message H σ}
    (h : answer ∈ roundAnswers (log ++ log')) :
    answer ∈ roundAnswers log ∨ .tallied answer.1 answer.2 ∈ log' := by
  induction log' using reverseRecOn with
  | nil => exact .inl (by simpa using h)
  | append_singleton log' output ih =>
    rw [← append_assoc] at h
    have hold : answer ∈ roundAnswers (log ++ log') →
        answer ∈ roundAnswers log ∨ .tallied answer.1 answer.2 ∈ log' ++ [output] := fun hmem =>
      (ih hmem).imp_right (mem_append_left _)
    cases output with
    | tallied d m =>
      rw [roundAnswers_tallied] at h
      rcases mem_append.mp h with h | h
      · exact hold h
      · rw [mem_singleton.mp h]
        exact .inr (by simp)
    | prePrepare b =>
      rw [roundAnswers_prePrepare] at h
      cases h
    | postPrepare s m => exact hold (by simpa [roundAnswers] using h)
    | postCommit m => exact hold (by simpa [roundAnswers] using h)
    | store block => exact hold (by simpa [roundAnswers] using h)

theorem undisturbed_of_forall (h : ∀ d m,.tallied d m ∈ log → ¬AsksForSubset m) :
    Undisturbed log := by
  intro l1 s m l2 heq
  refine ⟨fun answer hanswer => ?_,fun l3 d m' _ hask hpre => ?_⟩
  · have hmem : .tallied answer.1 answer.2 ∈ l1 := by
      rw [← nil_append l1] at hanswer
      rcases mem_roundAnswers_append hanswer with hnil | hmem
      · cases hnil
      · exact hmem
    exact h answer.1 answer.2 (by simp [heq,hmem])
  · obtain ⟨l4,rfl⟩ := hpre
    exact h d m' (by simp [heq]) hask

/-- While a PostPrepare is open, no invalid request was reported since the last proposal. -/
theorem Undisturbed.not_asksForSubset (h : Undisturbed log) (hopen : OpenIn log s m)
    {answer : DelegateId × Message H σ} (hanswer : answer ∈ roundAnswers log) :
    ¬AsksForSubset answer.2 := by
  obtain ⟨l1,l2,rfl,hcommit⟩ := hopen
  obtain ⟨hbefore,hafter⟩ := h l1 s m l2 rfl
  rcases mem_roundAnswers_append hanswer with hmem | hmem
  · exact hbefore answer hmem
  · rcases mem_cons.mp hmem with heq | hmem
    · cases heq
    · intro hask
      obtain ⟨l3,l4,rfl⟩ := append_of_mem hmem
      exact hafter l3 answer.1 answer.2 (fun m' hm' => hcommit m' (by simp [hm'])) hask
        ⟨l4,by simp⟩

end Logs

section Invariant

variable {log : List (Output H σ ρ)} {p q : State H σ ρ}

def State.InRound (p : State H σ ρ) : Prop := p.state = .prePrepare ∨ p.state = .postPrepare

theorem Counted.inRound {d : DelegateId} {m : Message H σ} (h : Counted cfg p d m q) :
    p.InRound := by
  have hstate := h.state
  cases m with
  | prepare m => exact .inl hstate
  | commit m => exact .inr hstate
  | rejection m => exact .inl hstate

theorem HeadedBy.congr {b : PrePrepare H σ ρ} (h : HeadedBy cfg p b)
    (hsequence : q.sequence = p.sequence)
    (hprevious : q.prevPrePrepareHash = p.prevPrePrepareHash) : HeadedBy cfg q b :=
  ⟨h.primaryDelegate,h.epochNumber,h.sequence.trans hsequence.symm,h.previous.trans hprevious.symm⟩

theorem Proposed.headed {p0 : State H σ ρ} {reproposing : Bool} {b : PrePrepare H σ ρ}
    (h : Proposed cfg p0 reproposing q b)
    (hagain : reproposing = true → p0.reproposeSubset = false →
      p0.currentBatch.delegatesEpochNumber = cfg.epochNumber ∧ HeadedBy cfg p0 p0.currentBatch) :
    HeadedBy cfg q b := by
  have hheaded : HeadedBy cfg p0 b := by
    by_cases hwhole : reproposing = true ∧ p0.reproposeSubset = false
    · obtain ⟨hepoch,hheaded⟩ := hagain hwhole.1 hwhole.2
      rw [h.again hwhole.1 hwhole.2 hepoch]
      exact ⟨hheaded.primaryDelegate,hheaded.epochNumber,hheaded.sequence,hheaded.previous⟩
    · exact h.anew (by cases reproposing <;> simp_all)
  exact hheaded.congr h.sequence h.prevPrePrepareHash

/-- The batch of a round, the flag that asks for subsets, and the proposals so far. -/
structure Locked (cfg : Config H σ ρ) (log : List (Output H σ ρ)) (p : State H σ ρ) : Prop where
  ongoing : p.InRound → p.ongoing = true
  prePrepareHash : p.InRound → p.prePrepareHash = cfg.hash p.currentBatch
  epochNumber : p.InRound → p.currentBatch.delegatesEpochNumber = cfg.epochNumber
  headed : p.InRound → HeadedBy cfg p p.currentBatch
  flagged : p.reproposeSubset = true → ∃ answer ∈ roundAnswers log,AsksForSubset answer.2
  held : Undisturbed log → ∀ s m,OpenIn log s m → p.InRound ∧ m.preprepareHash = p.prePrepareHash
  keeps : Undisturbed log → KeepsProposal cfg log

theorem Locked.reproposeSubset_eq_false (h : Locked cfg log p) (hquiet : Undisturbed log)
    {s : BitVec 32} {m : PostPhaseMessage H σ} (hopen : OpenIn log s m) :
    p.reproposeSubset = false := by
  rw [← Bool.not_eq_true]
  intro hflag
  obtain ⟨answer,hanswer,hask⟩ := h.flagged hflag
  exact hquiet.not_asksForSubset hopen hanswer hask

theorem Locked.count {d : DelegateId} {m : Message H σ} (h : Locked cfg log p)
    (hcounted : Counted cfg p d m q) : Locked cfg (log ++ [.tallied d m]) q := by
  have hsame := hcounted.sameRound
  have hround : q.InRound → p.InRound := fun hq => by rwa [State.InRound,hsame.state] at hq
  have hopen : ∀ {s m'},OpenIn (log ++ [.tallied d m]) s m' → OpenIn log s m' := fun ho => by
    rcases openIn_concat ho with ⟨hold,-⟩ | hnew
    · exact hold
    · cases hnew
  refine ⟨fun hq => ?_,fun hq => ?_,fun hq => ?_,fun hq => ?_,fun hflag => ?_,
    fun hquiet s m' ho => ?_,fun hquiet => ?_⟩
  · rw [hsame.ongoing,h.ongoing (hround hq)]
  · rw [hsame.prePrepareHash,hsame.currentBatch,h.prePrepareHash (hround hq)]
  · rw [hsame.currentBatch,h.epochNumber (hround hq)]
  · rw [hsame.currentBatch]
    exact (h.headed (hround hq)).congr hsame.sequence hsame.prevPrePrepareHash
  · rw [roundAnswers_tallied]
    rcases hsame.reproposeSubset with hkept | hask
    · rw [hkept] at hflag
      obtain ⟨answer,hanswer,hask⟩ := h.flagged hflag
      exact ⟨answer,mem_append_left _ hanswer,hask⟩
    · exact ⟨(d,m),by simp,hask⟩
  · obtain ⟨hin,hhash⟩ := h.held hquiet.of_append s m' (hopen ho)
    exact ⟨by rwa [State.InRound,hsame.state],by rw [hsame.prePrepareHash,hhash]⟩
  · exact keepsProposal_concat (h.keeps hquiet.of_append) fun b hb => by cases hb

/-- A proposal that repeats the hash of every open PostPrepare. -/
theorem Proposed.locked {p0 : State H σ ρ} {reproposing : Bool} {b : PrePrepare H σ ρ}
    (hproposed : Proposed cfg p0 reproposing q b) (hongoing : p0.ongoing = true)
    (hagain : reproposing = true → p0.reproposeSubset = false →
      p0.currentBatch.delegatesEpochNumber = cfg.epochNumber ∧ HeadedBy cfg p0 p0.currentBatch)
    (hkeeps : Undisturbed log → KeepsProposal cfg log)
    (hopen : Undisturbed log → ∀ s m,OpenIn log s m → cfg.hash b = m.preprepareHash) :
    Locked cfg (log ++ [.prePrepare b]) q where
  ongoing _ := hproposed.ongoing.trans hongoing
  prePrepareHash _ := by rw [hproposed.prePrepareHash,hproposed.currentBatch]
  epochNumber _ := by rw [hproposed.currentBatch,hproposed.delegatesEpochNumber]
  headed _ := by
    rw [hproposed.currentBatch]
    exact hproposed.headed hagain
  flagged hflag := by
    rw [hproposed.reproposeSubset] at hflag
    cases hflag
  held hquiet s m ho := by
    rcases openIn_concat ho with ⟨hold,-⟩ | hnew
    · refine ⟨.inl hproposed.state,?_⟩
      rw [hproposed.prePrepareHash,hopen hquiet.of_append s m hold]
    · cases hnew
  keeps hquiet := by
    refine keepsProposal_concat (hkeeps hquiet.of_append) fun b' hb' s m ho _ => ?_
    cases hb'
    exact hopen hquiet.of_append s m ho

theorem not_openIn_postCommit {m m' : PostPhaseMessage H σ} {s : BitVec 32}
    {block : PostCommittedBlock H σ (List ρ)} :
    ¬OpenIn (log ++ [.postCommit m'] ++ [.store block]) s m := by
  intro ho
  rcases openIn_concat ho with ⟨hold,-⟩ | hnew
  · rcases openIn_concat hold with ⟨-,hne⟩ | hnew
    · exact hne m' rfl
    · cases hnew
  · cases hnew

theorem Locked.step {e : Event H σ ρ} {o : List (Output H σ ρ)} (h : Locked cfg log p)
    (hstep : step cfg p e = some (q,o)) : Locked cfg (log ++ o) q := by
  cases step_effect hstep with
  | ignore =>
    rw [append_nil]
    exact h
  | await hstate =>
    have hout : ¬p.InRound := by simp [State.InRound,hstate]
    rw [append_nil]
    refine ⟨fun hin => ?_,fun hin => ?_,fun hin => ?_,fun hin => ?_,h.flagged,
      fun hquiet s m ho => ?_,h.keeps⟩
    · simp [State.InRound] at hin
    · simp [State.InRound] at hin
    · simp [State.InRound] at hin
    · simp [State.InRound] at hin
    · exact absurd (h.held hquiet s m ho).1 hout
  | count hcounted => exact h.count hcounted
  | @postPrepare remote m env p1 p2 hcounted hquorum hown =>
    have h1 := h.count hcounted
    have hin : p1.InRound := .inl (hcounted.sameRound.state.trans hcounted.state)
    cases hown
    rw [append_cons]
    refine ⟨fun _ => h1.ongoing hin,fun _ => h1.prePrepareHash hin,fun _ => h1.epochNumber hin,
      fun _ => (h1.headed hin).congr rfl rfl,fun hflag => ?_,fun hquiet s m' ho => ?_,fun hquiet => ?_⟩
    · obtain ⟨answer,hanswer,hask⟩ := h1.flagged hflag
      exact ⟨answer,by simpa [roundAnswers] using hanswer,hask⟩
    · refine ⟨.inr rfl,?_⟩
      rcases openIn_concat ho with ⟨hold,-⟩ | hnew
      · exact (h1.held hquiet.of_append s m' hold).2
      · cases hnew
        rfl
    · exact keepsProposal_concat (h1.keeps hquiet.of_append) fun b hb => by cases hb
  | @postCommit remote m env p1 p2 q block o' hcounted hquorum hown hnext =>
    have h1 := h.count hcounted
    have hkeeps : Undisturbed (log ++ [.tallied remote (.commit m)] ++
        [.postCommit ⟨p2.prePrepareHash,p2.postCommitSig⟩] ++ [.store block]) →
        KeepsProposal cfg (log ++ [.tallied remote (.commit m)] ++
        [.postCommit ⟨p2.prePrepareHash,p2.postCommitSig⟩] ++ [.store block]) := fun hquiet =>
      keepsProposal_concat (keepsProposal_concat (h1.keeps hquiet.of_append.of_append)
        fun b hb => by cases hb) fun b hb => by cases hb
    cases hnext with
    | idle hstate _ _ _ _ hflag =>
      have hout : ¬q.InRound := by simp [State.InRound,hstate]
      have hsplit : log ++ [.tallied remote (.commit m),
          .postCommit ⟨p2.prePrepareHash,p2.postCommitSig⟩,.store block] =
          log ++ [.tallied remote (.commit m)] ++
            [.postCommit ⟨p2.prePrepareHash,p2.postCommitSig⟩] ++ [.store block] := by simp
      rw [hsplit]
      refine ⟨fun hin => absurd hin hout,fun hin => absurd hin hout,fun hin => absurd hin hout,
        fun hin => absurd hin hout,fun hset => ?_,fun _ s m' ho => absurd ho not_openIn_postCommit,hkeeps⟩
      cases hown
      rw [hflag] at hset
      obtain ⟨answer,hanswer,hask⟩ := h1.flagged hset
      exact ⟨answer,by simpa [roundAnswers] using hanswer,hask⟩
    | propose hongoing hproposed =>
      have hlog := hproposed.locked hongoing (fun hfalse => absurd hfalse Bool.false_ne_true)
        hkeeps fun _ s m ho => absurd ho not_openIn_postCommit
      simpa using hlog
  | yield hcounted hleft =>
    have h1 := h.count hcounted
    subst hleft
    exact ⟨h1.ongoing,h1.prePrepareHash,h1.epochNumber,fun hin => (h1.headed hin).congr rfl rfl,
      h1.flagged,h1.held,h1.keeps⟩
  | subset hcounted hrejected hflag hongoing _ _ hproposed =>
    have h1 := h.count hcounted
    have hin := hcounted.inRound
    rw [append_cons]
    refine hproposed.locked ?_ (fun _ hfalse => ?_) h1.keeps fun hquiet s m ho => ?_
    · rw [hongoing,hcounted.sameRound.ongoing,h.ongoing hin]
    · rw [hflag] at hfalse
      cases hfalse
    · have hfalse := h1.reproposeSubset_eq_false hquiet ho
      rw [hrejected] at hfalse
      cases hfalse
  | repropose hin hproposed =>
    refine hproposed.locked (h.ongoing hin) (fun _ _ => ⟨h.epochNumber hin,(h.headed hin).congr rfl rfl⟩)
      h.keeps
      fun hquiet s m ho => ?_
    have hflag := h.reproposeSubset_eq_false hquiet ho
    rw [hproposed.again rfl hflag (h.epochNumber hin),(h.held hquiet s m ho).2]
    -- the hash does not cover the signature, the only field written anew
    exact (h.prePrepareHash hin).symm
  | propose hidle hongoing hproposed =>
    refine hproposed.locked hongoing (fun hfalse => absurd hfalse Bool.false_ne_true) h.keeps
      fun hquiet s m ho => ?_
    obtain ⟨hin,-⟩ := h.held hquiet s m ho
    rcases hidle with hidle | hinit
    · rw [h.ongoing hin] at hidle
      cases hidle
    · rcases hin with hin | hin <;> rw [hinit] at hin <;> cases hin

theorem init_locked (tip : H) (sequence : BitVec 32) : Locked cfg [] (init tip sequence) where
  ongoing hin := by rcases hin with hin | hin <;> cases hin
  prePrepareHash hin := by rcases hin with hin | hin <;> cases hin
  epochNumber hin := by rcases hin with hin | hin <;> cases hin
  headed hin := by rcases hin with hin | hin <;> cases hin
  flagged hflag := absurd hflag Bool.false_ne_true
  held _ s m ho := by
    obtain ⟨l1,l2,heq,-⟩ := ho
    simp at heq
  keeps _ l1 b l2 heq := by simp at heq

end Invariant

theorem exec_locked {tip : H} {sequence : BitVec 32} {es : List (Event H σ ρ)} {p : State H σ ρ}
    {log : List (Output H σ ρ)} (hexec : exec (step cfg) (init tip sequence) es = some (p,log)) :
    Locked cfg log p :=
  exec_preserves (I := Locked cfg) (fun _ _ _ _ _ h _ hstep => h.step hstep)
    (init_locked tip sequence) (along_true _ es) hexec

section Examples

/-- Four delegates of equal weight; delegate 0 is the primary, and two backups give it a quorum. -/
def fourConfig : Config ℕ Unit ℕ :=
  { unevenConfig with weights := fun d => if d.val < 4 then ⟨1,1⟩ else ⟨0,0⟩ }

def batchAt (now : BitVec 64) : PrePrepare ℕ Unit ℕ :=
  { (emptyPrePrepare now : PrePrepare ℕ Unit ℕ) with primaryDelegate := 0,body := [7,8] }

def prepareBatch : Message ℕ Unit := .prepare ⟨fourConfig.hash (batchAt 0),()⟩

def postPrepareBatch : PostPhaseMessage ℕ Unit := ⟨fourConfig.hash (batchAt 0),{0,2,3},()⟩

/-- Two backups prepare the batch, then their Commits are lost. -/
def lostCommits : List (Event ℕ Unit ℕ) :=
  [.start true (envWith 0 []),.messageQueued (envWith 0 [7,8]),
    .message 2 prepareBatch (envWith 0 []),.message 3 prepareBatch (envWith 0 []),
    .postPrepareTimeout (envWith 1 [])]

/-- The same after backup 1 has rejected request 7. -/
def lostCommitsAfterRejection : List (Event ℕ Unit ℕ) :=
  [.start true (envWith 0 []),.messageQueued (envWith 0 [7,8]),
    .message 1 (.rejection ⟨fourConfig.hash (batchAt 0),.containsInvalidRequest,[true,false],()⟩)
      (envWith 0 []),
    .message 2 prepareBatch (envWith 0 []),.message 3 prepareBatch (envWith 0 []),
    .postPrepareTimeout (envWith 1 [])]

end Examples

end LogosCore.Primary
