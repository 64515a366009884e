import LogosCore.Backup

/-!
# Safety of the backup delegate

What a backup signs along any sequence of messages: Commits only after the checks of a PostPrepare
for the hash it prepared, and, as long as post-committed blocks do not rewind its sequence number,
at most one Prepare for each predecessor.
-/

namespace LogosCore.Backup

open Machine Quorum
open BitVec (eq_of_toNat_eq le_refl toNat)

variable {H σ ρ : Type} [DecidableEq H] [Zero H] [Inhabited σ] {cfg : Config H σ ρ}

/-- No block and no PostPrepare hashes to zero. -/
def Config.NonzeroHashes (cfg : Config H σ ρ) : Prop :=
  (∀ m,cfg.hash m ≠ 0) ∧ ∀ h sig,cfg.hashing.computeHash h sig ≠ 0

/-- blake2b has no collision on what it reads of request blocks. -/
def Config.CollisionFree (cfg : Config H σ ρ) : Prop :=
  ∀ v v' image image' (c c' : List H),cfg.hashing.digest v image c = cfg.hashing.digest v' image' c' →
    v = v' ∧ image = image' ∧ c = c'

variable {m : PrePrepare H σ ρ} {log o : List (Output H σ ρ)} {b b' : State H σ ρ}
  {e : Event H σ ρ}

theorem Config.CollisionFree.sequence_eq (h : cfg.CollisionFree) {m' : PrePrepare H σ ρ}
    (hhash : cfg.hash m = cfg.hash m') : m.sequence = m'.sequence :=
  congrArg HeaderImage.sequence (h _ _ _ _ _ _ hhash).2.1

/-- `signed` is the hash of a PostPrepare for `preprepareHash` that verifies and has quorum. -/
def Checked (cfg : Config H σ ρ) (preprepareHash signed : H) : Prop :=
  ∃ sig,signed = cfg.hashing.computeHash preprepareHash sig ∧
    cfg.verifyAggregate preprepareHash sig ∧ cfg.thresholds.validateQuorum sig.map

/-- Prepares are for the pre-prepare at hand, Commits for a checked PostPrepare of a prepared
hash. -/
structure Accountable (cfg : Config H σ ρ) (log : List (Output H σ ρ)) : Prop where
  prepares : ∀ h approved,.prepare h approved ∈ log → ∃ m,approved = some m ∧ cfg.hash m = h
  commits : ∀ h signed,.commit h signed ∈ log → Checked cfg h signed ∧ ∃ m,.prepare h (some m) ∈ log

/-- No two Prepares for different hashes with the same predecessor. -/
def NoEquivocation (log : List (Output H σ ρ)) : Prop :=
  ∀ h m h' m',.prepare h (some m) ∈ log → .prepare h' (some m') ∈ log →
    m.previous = m'.previous → h = h'

structure Sound (cfg : Config H σ ρ) (log : List (Output H σ ρ)) (b : State H σ ρ) : Prop where
  reason : b.reason = .void
  state : b.state = .void ∨ b.state = .prepare ∨ b.state = .commit
  noPostPrepare : b.state ≠ .commit → b.postPrepareHash = 0
  noRound : b.state = .void → b.prePrepareHash = 0
  round : b.state ≠ .void → ∃ m,b.prePrepare = some m ∧ cfg.hash m = b.prePrepareHash ∧
    m.previous = b.prevPrePrepareHash ∧ m.sequence = b.sequenceNumber ∧
    .prepare b.prePrepareHash (some m) ∈ log
  checked : b.state = .commit → Checked cfg b.prePrepareHash b.postPrepareHash
  accountable : Accountable cfg log

theorem Accountable.append_prepare (h : Accountable cfg log) (m : PrePrepare H σ ρ) :
    Accountable cfg (log ++ [.prepare (cfg.hash m) (some m)]) where
  prepares h' approved hmem := by
    rcases List.mem_append.mp hmem with hmem | hmem
    · exact h.prepares h' approved hmem
    · obtain ⟨rfl,rfl⟩ : h' = cfg.hash m ∧ approved = some m := by simpa using hmem
      exact ⟨m,rfl,rfl⟩
  commits h' signed hmem := by
    obtain ⟨hchecked,m',hm'⟩ := h.commits h' signed (by simpa using hmem)
    exact ⟨hchecked,m',List.mem_append_left _ hm'⟩

theorem Accountable.append_commit (h : Accountable cfg log) {hash signed : H}
    (hchecked : Checked cfg hash signed) (hm : .prepare hash (some m) ∈ log) :
    Accountable cfg (log ++ [.commit hash signed]) where
  prepares h' approved hmem := h.prepares h' approved (by simpa using hmem)
  commits h' signed' hmem := by
    rcases List.mem_append.mp hmem with hmem | hmem
    · obtain ⟨hchecked',m',hm'⟩ := h.commits h' signed' hmem
      exact ⟨hchecked',m',List.mem_append_left _ hm'⟩
    · obtain ⟨rfl,rfl⟩ : h' = hash ∧ signed' = signed := by simpa using hmem
      exact ⟨hchecked,m,List.mem_append_left _ hm⟩

theorem Accountable.append_other (h : Accountable cfg log) (hp : ∀ h' a,.prepare h' a ∉ o)
    (hc : ∀ h' s,.commit h' s ∉ o) :
    Accountable cfg (log ++ o) where
  prepares h' approved hmem := h.prepares h' approved (by simpa [hp] using hmem)
  commits h' signed hmem := by
    obtain ⟨hchecked,m,hm⟩ := h.commits h' signed (by simpa [hc] using hmem)
    exact ⟨hchecked,m,List.mem_append_left _ hm⟩

theorem Sound.finishRound (hreason : b.reason = .void) (pp : PrePrepare H σ ρ)
    (h : Accountable cfg (log ++ o)) :
    Sound cfg (log ++ o) (finishRound b pp) where
  reason := hreason
  state := .inl rfl
  noPostPrepare _ := rfl
  noRound _ := rfl
  round hne := absurd rfl hne
  checked hc := nomatch hc
  accountable := h

theorem Sound.step (h : Sound cfg log b) (hs : step cfg b e = some (b',o)) :
    Sound cfg (log ++ o) b' := by
  obtain ⟨heffect,hreason⟩ := step_effect h.reason hs
  cases heffect with
  | approve hvoid hprev hseq hstate hm hhash hkept =>
    next m env =>
    refine ⟨hreason,.inr (.inl hstate),fun _ => ?_,fun hv => ?_,fun _ => ⟨m,hm,hhash.symm,?_,?_,?_⟩,
      fun hc => ?_,h.accountable.append_prepare m⟩
    · rw [hkept.2.2.1]
      exact h.noPostPrepare (by simp [hvoid])
    · simp [hstate] at hv
    · rw [hkept.1,hprev]
    · rw [hkept.2.1,hseq]
    · simp [hhash]
    · simp [hstate] at hc
  | repeatPrepare hstate hhash =>
    have hne : b.state ≠ .void := by rcases hstate with hs | hs <;> simp [hs]
    obtain ⟨m,hm,hmhash,hprev,hseq,hlog⟩ := h.round hne
    refine ⟨h.reason,h.state,h.noPostPrepare,h.noRound,fun _ => ⟨m,hm,hmhash,hprev,hseq,?_⟩,
      h.checked,?_⟩
    · exact List.mem_append_left _ hlog
    · rw [hm,← hmhash]
      exact h.accountable.append_prepare m
  | decline hstate hhash hkept hm ho _ =>
    have hacc : Accountable cfg (log ++ o) := by
      refine h.accountable.append_other ?_ ?_ <;> rcases ho with rfl | ⟨_,_,_,rfl⟩ <;> simp
    refine ⟨hreason,hstate.symm ▸ h.state,fun hne => ?_,fun hv => ?_,fun hne => ?_,
      fun hc => ?_,hacc⟩
    · rw [hkept.2.2.1]
      exact h.noPostPrepare (hstate ▸ hne)
    · rw [hhash]
      exact h.noRound (hstate ▸ hv)
    · obtain ⟨m,hm',hmhash,hprev,hseq,hlog⟩ := h.round (hstate ▸ hne)
      refine ⟨m,(hm (hstate ▸ hne)).trans hm',hmhash.trans hhash.symm,hprev.trans hkept.1.symm,
        hseq.trans hkept.2.1.symm,?_⟩
      rw [hhash]
      exact List.mem_append_left _ hlog
    · rw [hhash,hkept.2.2.1]
      exact h.checked (hstate ▸ hc)
  | approveCommit hstate hvalid =>
    next m =>
    obtain ⟨m',hm',hmhash,hprev,hseq,hlog⟩ := h.round (by simp [hstate])
    simp only [validatePostPrepare,Bool.and_eq_true,decide_eq_true_eq] at hvalid
    have hchecked : Checked cfg b.prePrepareHash
        (cfg.hashing.computeHash m.preprepareHash m.signature) :=
      ⟨m.signature,by rw [hvalid.1.1],hvalid.1.2,hvalid.2⟩
    refine ⟨hreason,.inr (.inr rfl),fun hne => absurd rfl hne,fun hv => (nomatch hv),
      fun _ => ⟨m',hm',hmhash,hprev,hseq,List.mem_append_left _ hlog⟩,fun _ => hchecked,
      h.accountable.append_commit hchecked hlog⟩
  | repeatCommit hvoid hprepare =>
    have hcommit : b.state = .commit := by
      rcases h.state with hs | hs | hs
      · exact absurd hs hvoid
      · exact absurd hs hprepare
      · exact hs
    obtain ⟨m',hm',hmhash,hprev,hseq,hlog⟩ := h.round hvoid
    exact ⟨h.reason,h.state,h.noPostPrepare,h.noRound,
      fun _ => ⟨m',hm',hmhash,hprev,hseq,List.mem_append_left _ hlog⟩,h.checked,
      h.accountable.append_commit (h.checked hcommit) hlog⟩
  | finish hstate hpp hvalid =>
    exact .finishRound h.reason _ (h.accountable.append_other (by simp) (by simp))
  | adopt hpp =>
    refine .finishRound ?_ _ (h.accountable.append_other (o := []) (by simp) (by simp))
    exact h.reason
  | ignore => simpa using h

theorem Sound.step_isSome (hz : cfg.NonzeroHashes) (h : Sound cfg log b) :
    ∃ b' o,Backup.step cfg b e = some (b',o) := by
  cases hs : Backup.step cfg b e with
  | some r => exact ⟨r.1,r.2,rfl⟩
  | none =>
    obtain ⟨m,-,hhash,hstate⟩ := step_eq_none hs
    have hpost : b.postPrepareHash = 0 :=
      h.noPostPrepare (by rcases hstate with hs | hs <;> simp [hs])
    exact absurd (hhash.trans hpost) (hz.2 _ _)

/-- The largest 32-bit sequence number, whose successor wraps to zero. -/
def lastSequence : BitVec 32 := 4294967295

/-- No block taken over is below the expected sequence number, and no round ends at the last. -/
def NoRewind (cfg : Config H σ ρ) (b : State H σ ρ) : Event H σ ρ → Prop
  | .postCommittedBlock block =>
    b.prePrepareHash = cfg.hash block.toConsensusBlock ∨ b.prevPrePrepareHash = block.previous →
      b.sequenceNumber ≤ block.sequence ∧ block.sequence ≠ lastSequence
  | .postCommit _ => b.sequenceNumber ≠ lastSequence
  | _ => True

/-- `p` is zero or the hash of a block with a sequence number below `n`. -/
def Before (cfg : Config H σ ρ) (n : BitVec 32) (p : H) : Prop :=
  p = 0 ∨ ∃ m,cfg.hash m = p ∧ m.sequence < n

theorem Before.mono {n n' : BitVec 32} {p : H} (h : Before cfg n p) (hn : n ≤ n') :
    Before cfg n' p := by
  rcases h with h | ⟨m,hm,hlt⟩
  · exact .inl h
  · exact .inr ⟨m,hm,by bv_omega⟩

theorem not_before_hash (hz : cfg.NonzeroHashes) (hcf : cfg.CollisionFree) {n : BitVec 32}
    (hn : n ≤ m.sequence) : ¬Before cfg n (cfg.hash m) := by
  rintro (h | ⟨m',hm',hlt⟩)
  · exact hz.1 m h
  · rw [hcf.sequence_eq hm'] at hlt
    bv_omega

/-- Every Prepare belongs to an earlier predecessor or to the round in progress. -/
structure Unforked (cfg : Config H σ ρ) (log : List (Output H σ ρ)) (b : State H σ ρ) : Prop where
  known : Before cfg b.sequenceNumber b.prevPrePrepareHash
  old : ∀ h m,.prepare h (some m) ∈ log → Before cfg b.sequenceNumber m.previous ∧
    (m.previous = b.prevPrePrepareHash → b.state ≠ .void ∧ h = b.prePrepareHash)
  unique : NoEquivocation log

theorem Unforked.append_other (h : Unforked cfg log b) (ho : ∀ h' a,.prepare h' a ∉ o) :
    Unforked cfg (log ++ o) b where
  known := h.known
  old h' m hmem := h.old h' m (by simpa [ho] using hmem)
  unique h1 m1 h2 m2 hmem1 hmem2 :=
    h.unique h1 m1 h2 m2 (by simpa [ho] using hmem1) (by simpa [ho] using hmem2)

/-- A Prepare of the round in progress keeps the predecessors apart. -/
theorem Unforked.append_prepare (h : Unforked cfg log b)
    (hprev : m.previous = b.prevPrePrepareHash) (hkept : Kept b b') (hstate : b'.state ≠ .void)
    (hround : b.state ≠ .void → b.prePrepareHash = b'.prePrepareHash) :
    Unforked cfg (log ++ [.prepare b'.prePrepareHash (some m)]) b' where
  known := by
    rw [hkept.1,hkept.2.1]
    exact h.known
  old h' m' hmem := by
    rw [hkept.1,hkept.2.1]
    rcases List.mem_append.mp hmem with hmem | hmem
    · obtain ⟨hbefore,hcur⟩ := h.old h' m' hmem
      refine ⟨hbefore,fun hp => ⟨hstate,?_⟩⟩
      exact (hcur hp).2.trans (hround (hcur hp).1)
    · obtain ⟨rfl,rfl⟩ : h' = b'.prePrepareHash ∧ m' = m := by simpa using hmem
      exact ⟨hprev ▸ h.known,fun _ => ⟨hstate,rfl⟩⟩
  unique h1 m1 h2 m2 hmem1 hmem2 hp := by
    have hcur : ∀ h' m',.prepare h' (some m') ∈ log → m'.previous = m.previous →
        h' = b'.prePrepareHash := fun h' m' hmem hp' => by
      have hc := (h.old h' m' hmem).2 (hp'.trans hprev)
      exact hc.2.trans (hround hc.1)
    simp only [List.mem_append,List.mem_singleton,Output.prepare.injEq,Option.some.injEq]
      at hmem1 hmem2
    rcases hmem1 with hmem1 | ⟨rfl,rfl⟩ <;> rcases hmem2 with hmem2 | ⟨rfl,rfl⟩
    · exact h.unique h1 m1 h2 m2 hmem1 hmem2 hp
    · exact hcur h1 m1 hmem1 hp
    · exact (hcur h2 m2 hmem2 hp.symm).symm
    · rfl

/-- Ending a round with a block that is not behind makes its hash a new predecessor. -/
theorem Unforked.advance (hz : cfg.NonzeroHashes) (hcf : cfg.CollisionFree)
    (h : Unforked cfg log b) (hle : b.sequenceNumber ≤ m.sequence)
    (hlast : m.sequence ≠ lastSequence) (hprev : b'.prevPrePrepareHash = cfg.hash m)
    (hseq : b'.sequenceNumber = m.sequence + 1) : Unforked cfg log b' := by
  have hlt : m.sequence < m.sequence + 1 := by
    unfold lastSequence at hlast
    bv_omega
  refine ⟨.inr ⟨m,hprev.symm,hseq ▸ hlt⟩,fun h' m' hmem => ?_,h.unique⟩
  obtain ⟨hbefore,-⟩ := h.old h' m' hmem
  refine ⟨hbefore.mono (by rw [hseq]; bv_omega),fun hp => ?_⟩
  rw [hp,hprev] at hbefore
  exact absurd hbefore (not_before_hash hz hcf hle)

theorem Unforked.step (hz : cfg.NonzeroHashes) (hcf : cfg.CollisionFree)
    (hsound : Sound cfg log b) (h : Unforked cfg log b) (hok : NoRewind cfg b e)
    (hs : step cfg b e = some (b',o)) : Unforked cfg (log ++ o) b' := by
  obtain ⟨heffect,-⟩ := step_effect hsound.reason hs
  cases heffect with
  | approve hvoid hprev hseq hstate hm hhash hkept =>
    rw [← hhash]
    exact h.append_prepare hprev hkept (by simp [hstate]) fun hne => absurd hvoid hne
  | repeatPrepare hstate hhash =>
    have hne : b.state ≠ .void := by rcases hstate with hs | hs <;> simp [hs]
    obtain ⟨m,hm,-,hprev,-,-⟩ := hsound.round hne
    rw [hm]
    exact h.append_prepare hprev .rfl hne fun _ => rfl
  | decline hstate hhash hkept hm ho _ =>
    have h' : Unforked cfg log b' := by
      refine ⟨?_,fun h' m' hmem => ?_,h.unique⟩
      · rw [hkept.1,hkept.2.1]
        exact h.known
      · rw [hkept.1,hkept.2.1,hstate,hhash]
        exact h.old h' m' hmem
    refine h'.append_other ?_
    rcases ho with rfl | ⟨_,_,_,rfl⟩ <;> simp
  | approveCommit hstate hvalid =>
    refine Unforked.append_other ⟨h.known,fun h' m' hmem => ?_,h.unique⟩ (by simp)
    obtain ⟨hbefore,hcur⟩ := h.old h' m' hmem
    exact ⟨hbefore,fun hp => ⟨by simp,(hcur hp).2⟩⟩
  | repeatCommit hvoid hprepare => exact h.append_other (by simp)
  | finish hstate hpp hvalid =>
    next pp =>
    obtain ⟨m,hm,hmhash,-,hseq,-⟩ := hsound.round (by simp [hstate])
    cases hpp.symm.trans hm
    refine Unforked.append_other ?_ (by simp)
    have hlast : pp.sequence ≠ lastSequence := hseq ▸ hok
    exact h.advance hz hcf (by rw [hseq]; exact le_refl _) hlast hmhash.symm rfl
  | adopt hpp =>
    next block pp =>
    refine Unforked.append_other ?_ (o := []) (by simp)
    rcases hpp with ⟨hpp,hhash⟩ | ⟨rfl,hprev⟩
    · have hne : b.state ≠ .void := fun hv =>
        hz.1 _ (hhash.symm.trans (hsound.noRound hv))
      obtain ⟨m,hm,hmhash,-,hseq,-⟩ := hsound.round hne
      cases hpp.symm.trans hm
      have hsame := hcf.sequence_eq (hmhash.trans hhash)
      have hlast : pp.sequence ≠ lastSequence := hsame ▸ (hok (.inl hhash)).2
      refine h.advance hz hcf (by rw [hseq]; exact le_refl _) hlast ?_ rfl
      exact (hmhash.trans hhash).symm
    · obtain ⟨hle,hlast⟩ := hok (.inr hprev)
      exact h.advance hz hcf hle hlast rfl rfl
  | ignore => simpa using h

def StoredTip (cfg : Config H σ ρ) (tipDigest : H) (tipBlock : Option (PrePrepare H σ ρ)) : Prop :=
  tipDigest = 0 ∨ ∃ m,tipBlock = some m ∧ cfg.hash m = tipDigest ∧ m.sequence ≠ lastSequence

theorem init_sound (tipDigest : H) (tipBlock : Option (PrePrepare H σ ρ)) :
    Sound cfg [] (init tipDigest tipBlock) where
  reason := rfl
  state := .inl rfl
  noPostPrepare _ := rfl
  noRound _ := rfl
  round hne := absurd rfl hne
  checked hc := nomatch hc
  accountable := ⟨by simp,by simp⟩

theorem init_unforked {tipDigest : H} {tipBlock : Option (PrePrepare H σ ρ)}
    (h : StoredTip cfg tipDigest tipBlock) : Unforked cfg [] (init tipDigest tipBlock) := by
  refine ⟨?_,by simp,by simp [NoEquivocation]⟩
  rcases h with rfl | ⟨m,rfl,hm,hlast⟩
  · exact .inl rfl
  · by_cases hz : tipDigest = 0
    · exact .inl hz
    · refine .inr ⟨m,hm,?_⟩
      simp only [init,hz,ne_eq,not_false_eq_true,if_true]
      unfold lastSequence at hlast
      bv_omega

section Examples

/-- A collision-free stand-in for blake2b on natural numbers. -/
def pairDigest (version : BitVec 8) (image : HeaderImage ℕ) (covered : List ℕ) : ℕ :=
  Encodable.encode (version.toNat,image.primaryDelegate.map BitVec.toNat,image.epochNumber.toNat,
    image.delegatesEpochNumber.toNat,image.sequence.toNat,image.timestamp.map BitVec.toNat,
    image.previous,covered) + 1

def natConfig : Config ℕ Unit ℕ where
  remote := 0
  expectedEpochNumber := 0
  hashing := ⟨id,pairDigest,fun h _ => h + 1⟩
  requestHash := id
  verifyRemote _ _ := true
  verifyAggregate _ _ := true
  thresholds := onCurrentEpochSet 1 fun _ => ⟨1,1⟩

theorem natConfig_nonzeroHashes : natConfig.NonzeroHashes :=
  ⟨fun _ => Nat.succ_ne_zero _,fun _ _ => Nat.succ_ne_zero _⟩

theorem natConfig_collisionFree : natConfig.CollisionFree := by
  intro v v' image image' c c' h
  have hinj : Function.Injective (Option.map (toNat : BitVec 8 → ℕ)) :=
    Option.map_injective fun _ _ => eq_of_toNat_eq
  have hinj' : Function.Injective (Option.map (toNat : BitVec 64 → ℕ)) :=
    Option.map_injective fun _ _ => eq_of_toNat_eq
  have heq := Encodable.encode_injective (Nat.succ.inj h)
  simp only [Prod.mk.injEq] at heq
  obtain ⟨hv,hp,he,hd,hs,ht,hprev,hc⟩ := heq
  refine ⟨eq_of_toNat_eq hv,?_,hc⟩
  cases image
  cases image'
  simp only [HeaderImage.mk.injEq]
  exact ⟨hinj hp,eq_of_toNat_eq he,eq_of_toNat_eq hd,eq_of_toNat_eq hs,hinj' ht,hprev⟩

def quietEnv : Surroundings := ⟨0,false,fun _ => false,.none,.none,.current⟩

def emptyBatch (sequence : BitVec 32) (timestamp : BitVec 64) (previous : ℕ) :
    PrePrepare ℕ Unit ℕ where
  primaryDelegate := 0
  epochNumber := 0
  delegatesEpochNumber := 0
  sequence := sequence
  timestamp := timestamp
  previous := previous
  preprepareSig := ()
  version := 0
  body := []

/-- The first batch arrives post-committed after it was prepared, then the next one. -/
def orderlyEvents : List (Event ℕ Unit ℕ) :=
  [.prePrepare (emptyBatch 0 0 0) quietEnv,
    .postCommittedBlock ⟨emptyBatch 0 0 0,⟨Finset.univ,()⟩,⟨Finset.univ,()⟩⟩,
    .prePrepare (emptyBatch 1 1 (natConfig.hash (emptyBatch 0 0 0))) quietEnv]

theorem orderlyEvents_along :
    Along (step natConfig) (NoRewind natConfig) (init 0 none) orderlyEvents := by
  refine ⟨trivial,fun s o h => ⟨fun _ => ?_,fun s' o' _ => ⟨trivial,fun _ _ _ => trivial⟩⟩⟩
  obtain rfl : (onPrePrepare natConfig (init 0 none) (emptyBatch 0 0 0) quietEnv).1 = s :=
    congrArg Prod.fst (Option.some.inj h)
  decide +kernel

/-- The hashes a backup signed Prepares for, with the predecessors of the approved blocks. -/
def votes (log : List (Output H σ ρ)) : List (H × H) :=
  log.filterMap fun
    | .prepare h (some m) => some (h,m.previous)
    | _ => none

theorem mem_votes {v : H × H} :
    v ∈ votes log ↔ ∃ m,.prepare v.1 (some m) ∈ log ∧ m.previous = v.2 := by
  unfold votes
  rw [List.mem_filterMap]
  constructor
  · rintro ⟨x,hx,hv⟩
    cases x with
    | prepare h approved =>
      cases approved with
      | none => simp at hv
      | some m =>
        obtain rfl : (h,m.previous) = v := by simpa using hv
        exact ⟨m,hx,rfl⟩
    | commit => simp at hv
    | rejection => simp at hv
    | store => simp at hv
  · rintro ⟨m,hm,hp⟩
    exact ⟨_,hm,by simp [hp]⟩

/-- The first block is committed and its successor prepared; then the first comes back with its own
hash as predecessor, which a block of sequence 0 does not hash. -/
def rewindingEvents : List (Event ℕ Unit ℕ) :=
  let first := natConfig.hash (emptyBatch 0 0 0)
  [.prePrepare (emptyBatch 0 0 0) quietEnv,.postPrepare ⟨first,⟨Finset.univ,()⟩⟩,
    .postCommit ⟨first,⟨Finset.univ,()⟩⟩,
    .prePrepare (emptyBatch 1 1 first) quietEnv,
    .postCommittedBlock ⟨emptyBatch 0 0 first,⟨Finset.univ,()⟩,⟨Finset.univ,()⟩⟩,
    .prePrepare (emptyBatch 1 2 first) quietEnv]

end Examples

end LogosCore.Backup
