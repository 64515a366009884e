import LogosCore.BackupSafety

/-!
# Agreement between backup delegates

The backups of one primary side by side, fed with any messages in any order. A malicious primary
and malicious delegates of tolerated weight cannot make two honest backups commit to, or hand to
the block cache, different blocks of one sequence number.
-/

namespace LogosCore.Backup

open Machine Quorum

variable {H σ ρ : Type} [DecidableEq H] [Zero H] [Inhabited σ] {cfg : Config H σ ρ}
  {log o : List (Output H σ ρ)} {b b' : State H σ ρ} {e : Event H σ ρ}

/-- One Prepare for each sequence number, none of them beyond the round in progress. -/
structure Ordered (log : List (Output H σ ρ)) (b : State H σ ρ) : Prop where
  passed : ∀ h m,.prepare h (some m) ∈ log → m.sequence < b.sequenceNumber ∨
    m.sequence = b.sequenceNumber ∧ b.state ≠ .void ∧ h = b.prePrepareHash
  single : ∀ h m h' m',.prepare h (some m) ∈ log → .prepare h' (some m') ∈ log →
    m.sequence = m'.sequence → h = h'

/-- Without a new Prepare the order stays if the round does or a later one begins. -/
theorem Ordered.next (h : Ordered log b)
    (ho : ∀ h m,.prepare h (some m) ∈ o → .prepare h (some m) ∈ log)
    (hnext : b.sequenceNumber < b'.sequenceNumber ∨ b'.sequenceNumber = b.sequenceNumber ∧
      (b.state ≠ .void → b'.state ≠ .void ∧ b'.prePrepareHash = b.prePrepareHash)) :
    Ordered (log ++ o) b' := by
  have hlog : ∀ h m,.prepare h (some m) ∈ log ++ o → .prepare h (some m) ∈ log :=
    fun h m hmem => (List.mem_append.mp hmem).elim id (ho h m)
  refine ⟨fun h' m hmem => ?_,fun h1 m1 h2 m2 hm1 hm2 =>
    h.single h1 m1 h2 m2 (hlog h1 m1 hm1) (hlog h2 m2 hm2)⟩
  rcases h.passed h' m (hlog h' m hmem) with hlt | ⟨heq,hround,rfl⟩
  · left
    rcases hnext with hnext | ⟨hnext,-⟩ <;> bv_omega
  · rcases hnext with hnext | ⟨hnext,hkeep⟩
    · left
      bv_omega
    · exact .inr ⟨heq.trans hnext.symm,(hkeep hround).1,(hkeep hround).2.symm⟩

theorem Ordered.step (hz : cfg.NonzeroHashes) (hcf : cfg.CollisionFree) (hsound : Sound cfg log b)
    (h : Ordered log b) (hok : NoRewind cfg b e) (hs : step cfg b e = some (b',o)) :
    Ordered (log ++ o) b' := by
  have hlater : ∀ n : BitVec 32,b.sequenceNumber ≤ n → n ≠ lastSequence →
      b.sequenceNumber < n + 1 := by
    unfold lastSequence
    intro n _ _
    bv_omega
  obtain ⟨heffect,-⟩ := step_effect hsound.reason hs
  cases heffect with
  | approve hvoid hprev hseq hstate hm hhash hkept =>
    next m env =>
    have hold : ∀ h' m',.prepare h' (some m') ∈ log → m'.sequence < m.sequence := by
      intro h' m' hmem
      rw [hseq]
      exact (h.passed h' m' hmem).resolve_right fun hcur => hcur.2.1 hvoid
    constructor
    · intro h' m' hmem
      rw [hkept.2.1,← hseq]
      rcases List.mem_append.mp hmem with hmem | hmem
      · exact .inl (hold h' m' hmem)
      · obtain ⟨rfl,rfl⟩ : h' = cfg.hash m ∧ m' = m := by simpa using hmem
        exact .inr ⟨rfl,by simp [hstate],hhash.symm⟩
    · intro h1 m1 h2 m2 hm1 hm2 heq
      simp only [List.mem_append,List.mem_singleton,Output.prepare.injEq,Option.some.injEq]
        at hm1 hm2
      rcases hm1 with hm1 | ⟨rfl,rfl⟩ <;> rcases hm2 with hm2 | ⟨rfl,rfl⟩
      · exact h.single h1 m1 h2 m2 hm1 hm2 heq
      · exact absurd (hold h1 m1 hm1) (by rw [heq]; exact BitVec.lt_irrefl _)
      · exact absurd (hold h2 m2 hm2) (by rw [heq]; exact BitVec.lt_irrefl _)
      · rfl
  | repeatPrepare hstate hhash =>
    obtain ⟨m,hm,-,-,-,hlog⟩ := hsound.round (by rcases hstate with hs | hs <;> simp [hs])
    refine h.next (fun h' m' hmem => ?_) (.inr ⟨rfl,fun hne => ⟨hne,rfl⟩⟩)
    obtain ⟨rfl,rfl⟩ : h' = b.prePrepareHash ∧ m = m' := by simpa [hm,eq_comm] using hmem
    exact hlog
  | decline hstate hhash hkept hm ho _ =>
    refine h.next (fun h' m' hmem => ?_) (.inr ⟨hkept.2.1,fun hne => ⟨hstate ▸ hne,hhash⟩⟩)
    rcases ho with rfl | ⟨_,_,_,rfl⟩ <;> simp at hmem
  | approveCommit hstate hvalid =>
    exact h.next (by simp) (.inr ⟨rfl,fun _ => ⟨by simp,rfl⟩⟩)
  | repeatCommit hvoid hprepare => exact h.next (by simp) (.inr ⟨rfl,fun hne => ⟨hne,rfl⟩⟩)
  | finish hstate hpp hvalid =>
    next pp =>
    obtain ⟨m,hm,-,-,hseq,-⟩ := hsound.round (by simp [hstate])
    cases hpp.symm.trans hm
    refine h.next (by simp) (.inl (hlater _ ?_ ?_)) <;> rw [hseq]
    exacts [BitVec.le_refl _,hok]
  | adopt hpp =>
    next block pp =>
    refine h.next (by simp) (.inl ?_)
    rcases hpp with ⟨hpp,hhash⟩ | ⟨rfl,hprev⟩
    · obtain ⟨m,hm,hmhash,-,-,-⟩ := hsound.round fun hv =>
        hz.1 _ (hhash.symm.trans (hsound.noRound hv))
      cases hpp.symm.trans hm
      have hsame := hcf.sequence_eq (hmhash.trans hhash)
      obtain ⟨hle,hlast⟩ := hok (.inl hhash)
      exact hlater _ (hsame ▸ hle) (hsame ▸ hlast)
    · obtain ⟨hle,hlast⟩ := hok (.inr hprev)
      exact hlater _ hle hlast
  | ignore => exact h.next (by simp) (.inr ⟨rfl,fun hne => ⟨hne,rfl⟩⟩)

/-- A backup in COMMIT has sent its Commit, and hands over only blocks it committed to. -/
structure Recorded (cfg : Config H σ ρ) (log : List (Output H σ ρ)) (b : State H σ ρ) : Prop where
  current : b.state = .commit → .commit b.prePrepareHash b.postPrepareHash ∈ log
  stored : ∀ block,.store block ∈ log →
    ∃ signed,.commit (cfg.hash block.toConsensusBlock) signed ∈ log

theorem Recorded.append (h : Recorded cfg log b) (ho : ∀ block,.store block ∉ o)
    (hcurrent : b'.state = .commit → .commit b'.prePrepareHash b'.postPrepareHash ∈ log ++ o) :
    Recorded cfg (log ++ o) b' := by
  refine ⟨hcurrent,fun block hmem => ?_⟩
  obtain ⟨signed,hsigned⟩ := h.stored block (by simpa [ho] using hmem)
  exact ⟨signed,List.mem_append_left _ hsigned⟩

/-- A Commit is a repeated one or answers a PostPrepare that passed the checks. -/
theorem Recorded.step (hsound : Sound cfg log b) (h : Recorded cfg log b)
    (hs : step cfg b e = some (b',o)) : Recorded cfg (log ++ o) b' ∧
      ∀ hash signed,.commit hash signed ∈ o → .commit hash signed ∈ log ∨
        ∃ m,e = .postPrepare m ∧ m.preprepareHash = hash ∧ cfg.verifyAggregate hash m.signature ∧
          cfg.thresholds.validateQuorum m.signature.map := by
  obtain ⟨heffect,-⟩ := step_effect hsound.reason hs
  cases heffect with
  | approve hvoid hprev hseq hstate hm hhash hkept =>
    exact ⟨h.append (by simp) (by simp [hstate]),by simp⟩
  | repeatPrepare hstate hhash =>
    exact ⟨h.append (by simp) fun hc => List.mem_append_left _ (h.current hc),by simp⟩
  | decline hstate hhash hkept hm ho _ =>
    refine ⟨h.append (fun block => ?_) fun hc => ?_,fun hash signed => ?_⟩
    · rcases ho with rfl | ⟨_,_,_,rfl⟩ <;> simp
    · rw [hhash,hkept.2.2.1]
      exact List.mem_append_left _ (h.current (hstate ▸ hc))
    · rcases ho with rfl | ⟨_,_,_,rfl⟩ <;> simp
  | approveCommit hstate hvalid =>
    next m =>
    simp only [validatePostPrepare,Bool.and_eq_true,decide_eq_true_eq] at hvalid
    refine ⟨h.append (by simp) (by simp),fun hash signed hmem => .inr ⟨m,rfl,?_⟩⟩
    obtain ⟨rfl,-⟩ : hash = b.prePrepareHash ∧ _ := by simpa using hmem
    exact ⟨hvalid.1.1.symm,hvalid.1.2,hvalid.2⟩
  | repeatCommit hvoid hprepare =>
    have hcommit := h.current ((hsound.state.resolve_left hvoid).resolve_left hprepare)
    refine ⟨h.append (by simp) fun _ => List.mem_append_left _ hcommit,fun hash signed hmem => ?_⟩
    obtain ⟨rfl,rfl⟩ : hash = b.prePrepareHash ∧ signed = b.postPrepareHash := by simpa using hmem
    exact .inl hcommit
  | finish hstate hpp hvalid =>
    refine ⟨⟨by simp [finishRound],fun block hmem => ?_⟩,by simp⟩
    rcases List.mem_append.mp hmem with hmem | hmem
    · obtain ⟨signed,hsigned⟩ := h.stored block hmem
      exact ⟨signed,List.mem_append_left _ hsigned⟩
    · obtain ⟨m,hm,hmhash,-⟩ := hsound.round (by simp [hstate])
      cases hpp.symm.trans hm
      cases List.mem_singleton.mp hmem
      exact ⟨_,hmhash ▸ List.mem_append_left _ (h.current hstate)⟩
  | adopt hpp => exact ⟨h.append (by simp) (by simp [finishRound]),by simp⟩
  | ignore => exact ⟨h.append (by simp) (by simpa using h.current),by simp⟩

/-- What holds of a single backup. -/
structure Consistent (cfg : Config H σ ρ) (log : List (Output H σ ρ)) (b : State H σ ρ) : Prop where
  sound : Sound cfg log b
  ordered : Ordered log b
  recorded : Recorded cfg log b

section Network

variable {weights : DelegateId → Weight} {honest : Finset DelegateId}

/-- The backup of delegate `i`; all delegates hold the same weights. -/
def Config.node (cfg : Config H σ ρ) (weights : DelegateId → Weight) (i : DelegateId) :
    Config H σ ρ :=
  { cfg with thresholds := onCurrentEpochSet i weights }

abbrev Network (H σ ρ : Type) := DelegateId → State H σ ρ × List (Output H σ ρ)

def deliver (cfg : Config H σ ρ) (weights : DelegateId → Weight) :
    Network H σ ρ → DelegateId × Event H σ ρ → Option (Network H σ ρ × List (Output H σ ρ)) :=
  interleave fun i => step (cfg.node weights i)

/-- Every honest delegate of the map has signed a Prepare for the hash. -/
def SignedBy (honest map : Finset DelegateId) (logs : DelegateId → List (Output H σ ρ)) (h : H) :
    Prop :=
  ∀ j ∈ map ∩ honest,h ∈ (votes (logs j)).map Prod.fst

/-- Signatures of honest delegates cannot be forged: those in an aggregate that verifies were made. -/
def Authentic (cfg : Config H σ ρ) (honest : Finset DelegateId) (n : Network H σ ρ) :
    Event H σ ρ → Prop
  | .postPrepare m => cfg.verifyAggregate m.preprepareHash m.signature →
      SignedBy honest m.signature.map (fun j => (n j).2) m.preprepareHash
  | _ => True

/-- The weight outside of the honest delegates is within the tolerated fault. -/
def Tolerated (weights : DelegateId → Weight) (honest : Finset DelegateId) : Prop :=
  ∑ i ∈ honestᶜ,(weights i).voteWeight.toNat ≤ (onCurrentEpochSet 0 weights).voteMaxFault.toNat ∨
    ∑ i ∈ honestᶜ,(weights i).stakeWeight.toNat ≤ (onCurrentEpochSet 0 weights).stakeMaxFault.toNat

/-- Two quorums share an honest delegate. -/
theorem Tolerated.exists_mem (h : Tolerated weights honest) (hint : QuorumIntersection weights)
    {A B : ParticipationMap} (hA : (onCurrentEpochSet 0 weights).validateQuorum A)
    (hB : (onCurrentEpochSet 0 weights).validateQuorum B) : ∃ k ∈ A ∩ B,k ∈ honest := by
  obtain ⟨hvote,hstake⟩ := hint 0 A B hA hB
  by_contra hnone
  have hsub : A ∩ B ⊆ honestᶜ := fun k hk =>
    Finset.mem_compl.mpr fun hhonest => hnone ⟨k,hk,hhonest⟩
  rcases h with h | h
  · exact absurd (h.trans_lt hvote) (Finset.sum_le_sum_of_subset hsub).not_gt
  · exact absurd (h.trans_lt hstake) (Finset.sum_le_sum_of_subset hsub).not_gt

/-- A Commit is justified by Prepares of quorum weight. -/
def Justified (weights : DelegateId → Weight) (honest : Finset DelegateId)
    (logs : DelegateId → List (Output H σ ρ)) (x : Output H σ ρ) : Prop :=
  ∀ h signed,x = .commit h signed → ∃ map,(onCurrentEpochSet 0 weights).validateQuorum map ∧
    SignedBy honest map logs h

/-- The backup signed a Commit for the block or handed it to the block cache. -/
def Decides (cfg : Config H σ ρ) (log : List (Output H σ ρ)) (m : PrePrepare H σ ρ) : Prop :=
  (∃ signed,.commit (cfg.hash m) signed ∈ log) ∨ ∃ block,.store block ∈ log ∧ block.toConsensusBlock = m

/-- No two honest backups decide for different blocks of one sequence number. -/
def Agreement (cfg : Config H σ ρ) (honest : Finset DelegateId) (n : Network H σ ρ) : Prop :=
  ∀ i ∈ honest,∀ j ∈ honest,∀ m m',Decides cfg (n i).2 m → Decides cfg (n j).2 m' →
    m.sequence = m'.sequence → cfg.hash m = cfg.hash m'

theorem Recorded.exists_commit (h : Recorded cfg log b) {m : PrePrepare H σ ρ}
    (hm : Decides cfg log m) : ∃ signed,.commit (cfg.hash m) signed ∈ log := by
  rcases hm with hm | ⟨block,hblock,rfl⟩
  · exact hm
  · exact h.stored block hblock

theorem SignedBy.mono {logs logs' : DelegateId → List (Output H σ ρ)} {h : H} {map : ParticipationMap}
    (hsigned : SignedBy honest map logs h) (hsub : ∀ j,logs j ⊆ logs' j) :
    SignedBy honest map logs' h := by
  intro j hj
  obtain ⟨v,hv,rfl⟩ := List.mem_map.mp (hsigned j hj)
  obtain ⟨m,hm,hprev⟩ := mem_votes.mp hv
  exact List.mem_map.mpr ⟨v,mem_votes.mpr ⟨m,hsub j hm,hprev⟩,rfl⟩

theorem SignedBy.exists_prepare {logs : DelegateId → List (Output H σ ρ)} {h : H}
    {map : ParticipationMap} (hsigned : SignedBy honest map logs h) {k : DelegateId}
    (hk : k ∈ map ∩ honest) (hacc : Accountable cfg (logs k)) :
    ∃ m,.prepare h (some m) ∈ logs k ∧ cfg.hash m = h := by
  obtain ⟨v,hv,rfl⟩ := List.mem_map.mp (hsigned k hk)
  obtain ⟨m,hm,-⟩ := mem_votes.mp hv
  obtain ⟨_,heq,hhash⟩ := hacc.prepares _ _ hm
  cases heq
  exact ⟨m,hm,hhash⟩

theorem Consistent.step {i : DelegateId} {n : Network H σ ρ}
    (h : Consistent (cfg.node weights i) (n i).2 (n i).1) (hz : (cfg.node weights i).NonzeroHashes)
    (hcf : (cfg.node weights i).CollisionFree) (hauth : Authentic cfg honest n e)
    (hok : NoRewind cfg (n i).1 e) :
    ∃ b' o,Backup.step (cfg.node weights i) (n i).1 e = some (b',o) ∧
      Consistent (cfg.node weights i) ((n i).2 ++ o) b' ∧
      ∀ x ∈ o,x ∈ (n i).2 ∨ Justified weights honest (fun j => (n j).2) x := by
  obtain ⟨b',o,hs⟩ := h.sound.step_isSome (e := e) hz
  obtain ⟨hrecorded,hcommits⟩ := h.recorded.step h.sound hs
  refine ⟨b',o,hs,⟨h.sound.step hs,h.ordered.step hz hcf h.sound hok hs,hrecorded⟩,
    fun x hx => or_iff_not_imp_left.mpr fun hnew hash signed hcommit => ?_⟩
  subst hcommit
  obtain ⟨m,rfl,rfl,hverify,hquorum⟩ := (hcommits hash signed hx).resolve_left hnew
  exact ⟨_,(validateQuorum_iff 0 weights _).mpr ((validateQuorum_iff i weights _).mp hquorum),
    hauth hverify⟩

end Network

section Examples

instance (b : State ℕ Unit ℕ) (e : Event ℕ Unit ℕ) : Decidable (NoRewind natConfig b e) := by
  cases e <;> unfold NoRewind <;> infer_instance

instance (honest : Finset DelegateId) (n : Network ℕ Unit ℕ) (e : Event ℕ Unit ℕ) :
    Decidable (Authentic natConfig honest n e) := by
  cases e <;> unfold Authentic <;> try unfold SignedBy <;> infer_instance

/-- Delegates 1 to 4 weigh one each; the primary 0 and the rest weigh nothing. -/
def fourWeights (i : DelegateId) : Weight := if i ∈ Finset.Icc 1 4 then ⟨1,1⟩ else ⟨0,0⟩

/-- Delegates 1 to 3 prepare the first batch, and delegates 1 and 2 see it through. -/
def fourEvents : List (DelegateId × Event ℕ Unit ℕ) :=
  let first := natConfig.hash (emptyBatch 0 0 0)
  let signature : AggSignature Unit := ⟨Finset.Icc 1 3,()⟩
  [(1,.prePrepare (emptyBatch 0 0 0) quietEnv),(2,.prePrepare (emptyBatch 0 0 0) quietEnv),
    (3,.prePrepare (emptyBatch 0 0 0) quietEnv),(1,.postPrepare ⟨first,signature⟩),
    (2,.postPrepare ⟨first,signature⟩),(1,.postCommit ⟨first,signature⟩),
    (2,.postCommit ⟨first,signature⟩)]

end Examples

end LogosCore.Backup
