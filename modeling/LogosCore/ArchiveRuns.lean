import LogosCore.EpochValidation

/-! # Runs of the archive

Request, micro and epoch blocks come in in any order and are stored if they are valid. The micro
blocks of an epoch end with one that is marked as the last, as long as none comes between the last
one and the epoch block. -/
namespace LogosCore.Archive

open Option Check
open Ledger (Amount Epoch GovernanceStore)

/-- A block that comes in, with the status of its validation and the tables of the ledger. -/
inductive Incoming (H σ : Type)
  | request (a : Arrival H σ)
  | micro (m : MicroBlock H σ) (status : Option ValidationStatus)
  | epoch (b : EpochBlock H σ) (status : Option ValidationStatus) (tables : GovernanceStore H)
    (feePools : Table Epoch Amount)

inductive Stored (H σ : Type)
  | micro (m : MicroBlock H σ)
  | epoch (b : EpochBlock H σ)

def Stored.micro? {H σ : Type} : Stored H σ → Option (MicroBlock H σ)
  | .micro m => some m
  | .epoch _ => none

variable {H σ : Type} [DecidableEq H] [Zero H] (D : Digests H) (clockDrift : BitVec 64)
  (V : Voting H)

namespace BlockStore

variable (s : BlockStore H σ)

def receiveMicro (m : MicroBlock H σ) (status : Option ValidationStatus) :
    Option (BlockStore H σ × List (Stored H σ)) :=
  if (s.validateMicroBlock m status).Accepts () then
    (s.applyMicroBlock D m).map (·,if D.microBlockHash m ∈ s.microBlocks then [] else [.micro m])
  else some (s,[])

def receiveEpoch (b : EpochBlock H σ) (status : Option ValidationStatus)
    (tables : GovernanceStore H) (feePools : Table Epoch Amount) :
    Option (BlockStore H σ × List (Stored H σ)) :=
  if (Node.validateEpoch V ⟨s,tables,feePools⟩ b status).Accepts () then
    (s.applyEpochBlock D b).map (·,if D.epochHash b ∈ s.epochs then [] else [.epoch b])
  else some (s,[])

/-- A block that comes in is stored if it is valid; the outputs are what is new. -/
def archive : Incoming H σ → Option (BlockStore H σ × List (Stored H σ))
  | .request a => (s.receive D clockDrift a).map fun r => (r.1,[])
  | .micro m status => s.receiveMicro D m status
  | .epoch b status tables feePools => s.receiveEpoch D V b status tables feePools

end BlockStore

open BlockStore

/-- The epoch goes up by one after a last micro block, and only there. -/
def Steps (a b : MicroBlock H σ) : Prop :=
  b.epochNumber = if a.body.lastMicroBlock ≠ 0 then a.epochNumber + 1 else a.epochNumber

/-- The micro blocks stored since `m0` and epoch `e0` follow each other, none comes after a last one
in its epoch, and those of an epoch come after the epoch block before. -/
structure Structured (m0 : MicroBlock H σ) (e0 : BitVec 32) (log : List (Stored H σ)) : Prop where
  steps : List.IsChain Steps (m0 :: log.filterMap Stored.micro?)
  final : (m0 :: log.filterMap Stored.micro?).Pairwise fun a b =>
    a.epochNumber ≤ b.epochNumber ∧ (a.body.lastMicroBlock ≠ 0 → a.epochNumber < b.epochNumber)
  after : ∀ before m rest,log = before ++ .micro m :: rest →
    m.epochNumber = e0 + 1 ∨ ∃ b,.epoch b ∈ before ∧ m.epochNumber = b.epochNumber + 1

structure Standing (m0 : MicroBlock H σ) (e0 : BitVec 32) (log : List (Stored H σ))
    (s : BlockStore H σ) : Prop where
  structured : Structured m0 e0 log
  tip : ∃ m h p,(m0 :: log.filterMap Stored.micro?).getLast? = some m ∧
    s.microBlockTip = some (tipOf m h) ∧ s.microBlocks.lookup h = some p ∧
    p.toConsensusBlock = m.toConsensusBlock ∧ ∃ t,s.epochTip = some t ∧
      (t.epoch + 1 = m.epochNumber ∨ t.epoch = m.epochNumber ∧ m.body.lastMicroBlock ≠ 0) ∧
      (t.epoch = e0 ∨ ∃ b,.epoch b ∈ log ∧ t.epoch = b.epochNumber)

def EpochClosed (s : BlockStore H σ) : Prop :=
  ∀ t ∈ s.microBlockTip,∀ p ∈ s.microBlocks.lookup t.digest,p.body.lastMicroBlock ≠ 0 →
    ∀ et ∈ s.epochTip,et.epoch = p.epochNumber

/-- The block after a last micro block waits for the epoch block; the checks of the tips are
made. -/
def InTurn (s : BlockStore H σ) : Incoming H σ → Prop
  | .request _ => True
  | .micro m status => Made status MVP.done.rank ∧ m.epochNumber ≠ 0 ∧ EpochClosed s
  | .epoch _ status _ _ => Made status EVP.epochTip.rank

section Frames

/-- The micro blocks and the tip of the epoch blocks are the same. -/
structure SameArchive (s s' : BlockStore H σ) : Prop where
  microBlocks : s'.microBlocks = s.microBlocks
  microBlockTip : s'.microBlockTip = s.microBlockTip
  epochTip : s'.epochTip = s.epochTip

theorem SameArchive.trans {s1 s2 s3 : BlockStore H σ} (h : SameArchive s1 s2)
    (h' : SameArchive s2 s3) : SameArchive s1 s3 :=
  ⟨h'.microBlocks.trans h.microBlocks,h'.microBlockTip.trans h.microBlockTip,
    h'.epochTip.trans h.epochTip⟩

variable {D} {s s' : BlockStore H σ}

theorem linkFirst_sameArchive {m : RequestBlock H σ} {r : BlockStore H σ × RequestBlock H σ}
    (h : s.linkFirst D m = some r) : SameArchive s r.1 := by
  unfold linkFirst at h
  split at h
  · obtain ⟨stored,-,h⟩ := bind_eq_some_iff.mp h
    split at h
    · obtain ⟨tip,-,h⟩ := bind_eq_some_iff.mp h
      obtain ⟨blocks,-,h⟩ := bind_eq_some_iff.mp h
      obtain rfl := some.inj h
      exact ⟨rfl,rfl,rfl⟩
    · obtain rfl := some.inj h
      exact ⟨rfl,rfl,rfl⟩
  · obtain rfl := some.inj h
    exact ⟨rfl,rfl,rfl⟩

theorem applyRequestBlock_sameArchive {m : RequestBlock H σ}
    (h : s.applyRequestBlock D m = some s') : SameArchive s s' := by
  unfold applyRequestBlock at h
  split at h
  · obtain rfl := some.inj h
    exact ⟨rfl,rfl,rfl⟩
  · obtain ⟨r,hr,h⟩ := bind_eq_some_iff.mp h
    have hlink := linkFirst_sameArchive hr
    split at h
    · obtain ⟨blocks,-,h⟩ := bind_eq_some_iff.mp h
      obtain rfl := some.inj h
      exact ⟨hlink.microBlocks,hlink.microBlockTip,hlink.epochTip⟩
    · obtain rfl := some.inj h
      exact ⟨hlink.microBlocks,hlink.microBlockTip,hlink.epochTip⟩

theorem receive_sameArchive {a : Arrival H σ} {o : List Empty}
    (h : s.receive D clockDrift a = some (s',o)) : SameArchive s s' := by
  unfold receive at h
  split at h
  · obtain ⟨s1,hs1,heq⟩ := map_eq_some_iff.mp h
    obtain rfl := (Prod.mk.inj heq).1
    exact applyRequestBlock_sameArchive hs1
  · obtain rfl := (Prod.mk.inj (some.inj h)).1
    exact ⟨rfl,rfl,rfl⟩

theorem linkAndUpdateTips_sameArchive {d : Fin numDelegates} {e : BitVec 32} {first : Tip H}
    (h : s.linkAndUpdateTips d e first = some s') : SameArchive s s' := by
  obtain ⟨prevLast,-,h⟩ := bind_eq_some_iff.mp h
  obtain ⟨s1,hs1,h⟩ := bind_eq_some_iff.mp h
  obtain rfl := some.inj h
  unfold rollOrLink at hs1
  split at hs1
  · obtain rfl := some.inj hs1
    exact ⟨rfl,rfl,rfl⟩
  · obtain ⟨blocks,-,hs1⟩ := bind_eq_some_iff.mp hs1
    obtain ⟨blocks',-,hs1⟩ := bind_eq_some_iff.mp hs1
    obtain rfl := some.inj hs1
    exact ⟨rfl,rfl,rfl⟩

theorem foldlM_sameArchive {e : BitVec 32} {firsts : Fin numDelegates → Tip H}
    {ds : List (Fin numDelegates)}
    (h : ds.foldlM (fun s d => s.linkAndUpdateTips d e (firsts d)) s = some s') :
    SameArchive s s' := by
  induction ds generalizing s with
  | nil =>
    obtain rfl := some.inj h
    exact ⟨rfl,rfl,rfl⟩
  | cons d ds ih =>
    obtain ⟨s1,hs1,h⟩ := bind_eq_some_iff.mp h
    exact (linkAndUpdateTips_sameArchive hs1).trans (ih h)

theorem applyEpochBlock_new {b : EpochBlock H σ} (hnew : D.epochHash b ∉ s.epochs)
    (h : s.applyEpochBlock D b = some s') :
    s'.microBlocks = s.microBlocks ∧ s'.microBlockTip = s.microBlockTip ∧
      s'.epochTip = some (tipOf b (D.epochHash b)) := by
  rw [applyEpochBlock,if_neg hnew] at h
  obtain ⟨epochs,-,h⟩ := bind_eq_some_iff.mp h
  split at h
  · obtain rfl := some.inj h
    exact ⟨rfl,rfl,rfl⟩
  · obtain ⟨firsts,-,h⟩ := bind_eq_some_iff.mp h
    have hsame := foldlM_sameArchive h
    exact ⟨hsame.microBlocks,hsame.microBlockTip,hsame.epochTip⟩

/-- A new micro block is stored under the tip. -/
theorem applyMicroBlock_new {m : MicroBlock H σ} (hnew : D.microBlockHash m ∉ s.microBlocks)
    (hprevious : m.previous ∈ s.microBlocks) (h : s.applyMicroBlock D m = some s') :
    s'.microBlocks.lookup (D.microBlockHash m) = some m ∧
      s'.microBlockTip = some (tipOf m (D.microBlockHash m)) ∧ s'.epochTip = s.epochTip := by
  rw [applyMicroBlock,if_neg hnew] at h
  obtain ⟨blocks,hblocks,h⟩ := bind_eq_some_iff.mp h
  obtain rfl := some.inj h
  refine ⟨?_,rfl,rfl⟩
  have hne : D.microBlockHash m ≠ m.previous := fun heq => hnew (heq ▸ hprevious)
  change blocks.lookup _ = _
  rw [lookup_updateNext hblocks,if_neg hne]
  exact AList.lookup_insert _

end Frames

section Run

theorem split_concat {α : Type} {before rest l : List α} {a x : α}
    (h : l ++ [x] = before ++ a :: rest) :
    before = l ∧ a = x ∨ ∃ rest',l = before ++ a :: rest' := by
  rcases List.eq_nil_or_concat rest with rfl | ⟨rest',y,rfl⟩
  · obtain ⟨hl,hx⟩ := List.append_inj' h rfl
    exact .inl ⟨hl.symm,(List.cons.inj hx).1.symm⟩
  · right
    refine ⟨rest',?_⟩
    have h' : l ++ [x] = (before ++ a :: rest') ++ [y] := by simpa using h
    exact (List.append_inj' h' rfl).1

variable {D clockDrift V} {m0 : MicroBlock H σ} {e0 : BitVec 32} {log : List (Stored H σ)}
  {s s' : BlockStore H σ}

theorem pairwise_concat {l : List (MicroBlock H σ)} {p m : MicroBlock H σ}
    (hl : l.Pairwise fun a b => a.epochNumber ≤ b.epochNumber ∧
      (a.body.lastMicroBlock ≠ 0 → a.epochNumber < b.epochNumber))
    (hlast : l.getLast? = some p) (hsteps : Steps p m) (hne : m.epochNumber ≠ 0) :
    (l ++ [m]).Pairwise fun a b => a.epochNumber ≤ b.epochNumber ∧
      (a.body.lastMicroBlock ≠ 0 → a.epochNumber < b.epochNumber) := by
  have hpm : p.epochNumber ≤ m.epochNumber ∧
      (p.body.lastMicroBlock ≠ 0 → p.epochNumber < m.epochNumber) := by
    unfold Steps at hsteps
    split at hsteps
    · exact ⟨by bv_omega,fun _ => by bv_omega⟩
    · next hnot => exact ⟨by rw [hsteps]; exact BitVec.le_refl _,fun h => absurd h hnot⟩
  refine List.pairwise_append.mpr ⟨hl,List.pairwise_singleton _ _,fun a ha b hb => ?_⟩
  obtain rfl := List.mem_singleton.mp hb
  obtain ⟨l',rfl⟩ := List.getLast?_eq_some_iff.mp hlast
  rcases List.mem_append.mp ha with ha | ha
  · have hap := (List.pairwise_append.mp hl).2.2 a ha p (List.mem_singleton_self p)
    refine ⟨?_,fun h => ?_⟩
    · bv_omega
    · have := hpm.1
      bv_omega
  · obtain rfl := List.mem_singleton.mp ha
    exact hpm

theorem micros_concat_micro (m0 m : MicroBlock H σ) (log : List (Stored H σ)) :
    m0 :: (log ++ [Stored.micro m]).filterMap Stored.micro? =
      (m0 :: log.filterMap Stored.micro?) ++ [m] := by
  rw [List.filterMap_append]
  rfl

theorem micros_concat_epoch (b : EpochBlock H σ) (log : List (Stored H σ)) :
    (log ++ [Stored.epoch b]).filterMap Stored.micro? = log.filterMap Stored.micro? := by
  rw [List.filterMap_append]
  exact List.append_nil _

/-- A micro block that follows the last one, after the epoch block before it. -/
theorem Structured.micro (h : Structured m0 e0 log) {p m : MicroBlock H σ}
    (hlast : (m0 :: log.filterMap Stored.micro?).getLast? = some p) (hsteps : Steps p m)
    (hne : m.epochNumber ≠ 0)
    (hafter : m.epochNumber = e0 + 1 ∨ ∃ b,.epoch b ∈ log ∧ m.epochNumber = b.epochNumber + 1) :
    Structured m0 e0 (log ++ [.micro m]) := by
  refine ⟨?_,?_,fun before m' rest hsplit => ?_⟩
  · rw [micros_concat_micro]
    refine List.isChain_append.mpr ⟨h.steps,List.isChain_singleton m,fun x hx y hy => ?_⟩
    obtain rfl := some.inj (hlast.symm.trans hx)
    obtain rfl := some.inj hy
    exact hsteps
  · rw [micros_concat_micro]
    exact pairwise_concat h.final hlast hsteps hne
  · rcases split_concat hsplit with ⟨rfl,hm⟩ | ⟨rest',hrest⟩
    · obtain rfl := Stored.micro.inj hm
      exact hafter
    · exact h.after before m' rest' hrest

theorem Structured.epoch (h : Structured m0 e0 log) (b : EpochBlock H σ) :
    Structured m0 e0 (log ++ [.epoch b]) := by
  refine ⟨?_,?_,fun before m' rest hsplit => ?_⟩
  · rw [micros_concat_epoch]
    exact h.steps
  · rw [micros_concat_epoch]
    exact h.final
  · rcases split_concat hsplit with ⟨-,hm⟩ | ⟨rest',hrest⟩
    · cases hm
    · exact h.after before m' rest' hrest

variable (h : Standing m0 e0 log s)
include h

theorem Standing.same (hsame : SameArchive s s') : Standing m0 e0 log s' := by
  obtain ⟨m,k,p,hlast,htip,hp,hheader,t,ht,hepoch,hlog⟩ := h.tip
  exact ⟨h.structured,m,k,p,hlast,hsame.microBlockTip.trans htip,hsame.microBlocks ▸ hp,hheader,t,
    hsame.epochTip.trans ht,hepoch,hlog⟩

theorem Standing.micro {m : MicroBlock H σ}
    {status : Option ValidationStatus} {o : List (Stored H σ)} (hturn : InTurn s (.micro m status))
    (hstep : s.receiveMicro D m status = some (s',o)) : Standing m0 e0 (log ++ o) s' := by
  unfold receiveMicro at hstep
  split at hstep
  · next haccepts =>
    obtain ⟨s1,hs1,heq⟩ := map_eq_some_iff.mp hstep
    obtain ⟨rfl,rfl⟩ := Prod.mk.inj heq
    by_cases hthere : D.microBlockHash m ∈ s.microBlocks
    · rw [applyMicroBlock,if_pos hthere] at hs1
      rw [if_pos hthere,List.append_nil,← some.inj hs1]
      exact h
    · rw [if_neg hthere]
      obtain ⟨hmade,hne,hwait⟩ := hturn
      obtain ⟨p,hfollows⟩ := (accepts_validateMicroBlock.mp haccepts).2.2 hmade
      obtain ⟨m1,k,p1,hlast,htip,hp1,hheader,t,ht,hepoch,hlog⟩ := h.tip
      obtain ⟨t1,ht1,-,hnumber⟩ := hfollows.epoch
      obtain rfl : t = t1 := some.inj (ht.symm.trans ht1)
      -- the epoch before is that of the last micro block if it has ended, otherwise one less
      have hsteps : Steps m1 m := by
        unfold Steps
        split
        · next hflag =>
          have hended := hwait _ htip p1 hp1 (by rw [hheader]; exact hflag) t ht
          rw [hheader] at hended
          rw [← hnumber,hended]
        · next hflag =>
          rcases hepoch with hepoch | hepoch
          · rw [← hnumber,hepoch]
          · exact absurd hepoch.2 hflag
      have hafter : m.epochNumber = e0 + 1 ∨ ∃ b,.epoch b ∈ log ∧
          m.epochNumber = b.epochNumber + 1 := by
        rw [← hnumber]
        rcases hlog with hlog | ⟨b,hb,hlog⟩
        · exact .inl (by rw [hlog])
        · exact .inr ⟨b,hb,by rw [hlog]⟩
      have hprevious : m.previous ∈ s.microBlocks :=
        Table.mem_of_lookup (hfollows.previous)
      obtain ⟨hstored,htip',hepochTip⟩ := applyMicroBlock_new hthere hprevious hs1
      refine ⟨h.structured.micro hlast hsteps hne hafter,m,_,m,?_,htip',hstored,rfl,t,
        hepochTip.trans ht,.inl hnumber,?_⟩
      · rw [micros_concat_micro]
        exact List.getLast?_concat
      · rcases hlog with hlog | ⟨b,hb,hlog⟩
        · exact .inl hlog
        · exact .inr ⟨b,List.mem_append_left _ hb,hlog⟩
  · obtain ⟨rfl,rfl⟩ := Prod.mk.inj (some.inj hstep)
    rw [List.append_nil]
    exact h

theorem Standing.epoch {b : EpochBlock H σ}
    {status : Option ValidationStatus} {tables : GovernanceStore H}
    {feePools : Table Epoch Amount} {o : List (Stored H σ)} (hmade : Made status EVP.epochTip.rank)
    (hstep : s.receiveEpoch D V b status tables feePools = some (s',o)) :
    Standing m0 e0 (log ++ o) s' := by
  unfold receiveEpoch at hstep
  split at hstep
  · next haccepts =>
    obtain ⟨s1,hs1,heq⟩ := map_eq_some_iff.mp hstep
    obtain ⟨rfl,rfl⟩ := Prod.mk.inj heq
    by_cases hthere : D.epochHash b ∈ s.epochs
    · rw [applyEpochBlock,if_pos hthere] at hs1
      rw [if_pos hthere,List.append_nil,← some.inj hs1]
      exact h
    · rw [if_neg hthere]
      obtain ⟨r,hr,hf⟩ := (Node.accepts_validateEpoch hmade).mp haccepts
      obtain ⟨m,k,p,hlast,htip,hp,hheader,t,ht,hepoch,hlog⟩ := h.tip
      have hmicroTip : r.microTip = tipOf m k := some.inj (hr.microTip.symm.trans htip)
      have hflag : m.body.lastMicroBlock ≠ 0 := by
        have hp' := hr.last
        rw [hmicroTip] at hp'
        have hlast' : p = r.last := some.inj (hp.symm.trans hp')
        rw [← hheader,hlast']
        exact hf.last
      have hnumber : b.epochNumber = m.epochNumber := by
        rw [hf.epochNumber,← hf.microEpoch,hmicroTip]
        rfl
      obtain ⟨hmicros,hmicroTip',hepochTip⟩ := applyEpochBlock_new hthere hs1
      refine ⟨h.structured.epoch b,m,k,p,?_,hmicroTip'.trans htip,hmicros ▸ hp,hheader,_,hepochTip,
        .inr ⟨hnumber,hflag⟩,.inr ⟨b,List.mem_append_right _ (List.mem_singleton_self _),rfl⟩⟩
      rw [micros_concat_epoch]
      exact hlast
  · obtain ⟨rfl,rfl⟩ := Prod.mk.inj (some.inj hstep)
    rw [List.append_nil]
    exact h

theorem Standing.archive {e : Incoming H σ} {o : List (Stored H σ)}
    (hturn : InTurn s e) (hstep : s.archive D clockDrift V e = some (s',o)) :
    Standing m0 e0 (log ++ o) s' := by
  cases e with
  | request a =>
    obtain ⟨r,hr,heq⟩ := map_eq_some_iff.mp hstep
    obtain ⟨rfl,rfl⟩ := Prod.mk.inj heq
    rw [List.append_nil]
    exact h.same (receive_sameArchive clockDrift hr)
  | micro m status => exact h.micro hturn hstep
  | epoch b status tables feePools => exact h.epoch hturn hstep

omit h

/-- Where epoch blocks are waited for, the stored micro blocks have the structure of the epochs. -/
theorem exec_structured {es : List (Incoming H σ)} (hs : Standing m0 e0 [] s)
    (hturn : Machine.Along (BlockStore.archive D clockDrift V) InTurn s es)
    (hrun : Machine.exec (BlockStore.archive D clockDrift V) s es = some (s',log)) :
    Structured m0 e0 log := by
  have hstanding : Standing m0 e0 log s' :=
    Machine.exec_preserves (fun _ _ _ _ _ h hturn hstep => h.archive hturn hstep) hs hturn hrun
  exact hstanding.structured

end Run

section Sample

instance (s : BlockStore H σ) : Decidable (EpochClosed s) :=
  have (p : MicroBlock H σ) : Decidable (∀ et ∈ s.epochTip,et.epoch = p.epochNumber) :=
    Option.decidableForallMem ..
  have (t : Tip H) : Decidable (∀ p ∈ s.microBlocks.lookup t.digest,p.body.lastMicroBlock ≠ 0 →
      ∀ et ∈ s.epochTip,et.epoch = p.epochNumber) :=
    Option.decidableForallMem ..
  Option.decidableForallMem ..

instance (s : BlockStore H σ) (e : Incoming H σ) : Decidable (InTurn s e) :=
  match e with
  | .request _ => inferInstanceAs (Decidable True)
  | .micro m status =>
    inferInstanceAs (Decidable (Made status MVP.done.rank ∧ m.epochNumber ≠ 0 ∧ EpochClosed s))
  | .epoch _ status _ _ => inferInstanceAs (Decidable (Made status EVP.epochTip.rank))

/-- The store at the end of epoch three, with the last micro block of the genesis. -/
def archiveStore : BlockStore ℕ Unit :=
  { boundaryStore with
    microBlocks := genesisStore.microBlocks
    microBlockTip := genesisStore.microBlockTip }

def microBehind (p : MicroBlock ℕ Unit) (epoch : BitVec 32) (body : MicroBlockBody ℕ) :
    MicroBlock ℕ Unit :=
  sampleBlock 0 epoch (p.sequence + 1) (Digests.sample.microBlockHash p) body

/-- The last micro block of epoch three, its epoch block and a micro block of epoch four. -/
def thirdMicroBlock : MicroBlock ℕ Unit := microBehind genesisMicroBlock 3 ⟨1,32,lastTip⟩

def thirdEpochBlock : EpochBlock ℕ Unit :=
  sampleBlock 0 3 3 (Digests.sample.epochHash (sampleEpoch 2 0))
    ⟨tipOf thirdMicroBlock (Digests.sample.microBlockHash thirdMicroBlock),0,0,[],32,false⟩

def archiveEvents : List (Incoming ℕ Unit) :=
  [.micro thirdMicroBlock none,.epoch thirdEpochBlock none .empty ∅,
    .micro (microBehind thirdMicroBlock 4 ⟨0,0,lastTip⟩) none]

theorem exec_structured_sample :
    ∃ r,Machine.exec (BlockStore.archive Digests.sample 0 sampleVoting) archiveStore archiveEvents =
      some r ∧ r.2.length = 3 ∧ Structured genesisMicroBlock 2 r.2 := by
  have hrun : ((Machine.exec (BlockStore.archive Digests.sample 0 sampleVoting) archiveStore
      archiveEvents).map fun r => r.2.length) = some 3 := by decide +kernel
  have hturn : Machine.checks (BlockStore.archive Digests.sample 0 sampleVoting)
      (fun s e => decide (InTurn s e)) archiveStore archiveEvents = true := by decide +kernel
  have hempty : Structured genesisMicroBlock 2 ([] : List (Stored ℕ Unit)) :=
    ⟨List.isChain_singleton _,List.pairwise_singleton _ _,fun before m rest h =>
      absurd h.symm (List.append_ne_nil_of_right_ne_nil _ (List.cons_ne_nil _ _))⟩
  have hstored : archiveStore.microBlocks.lookup (Digests.sample.microBlockHash genesisMicroBlock) =
      some genesisMicroBlock := by decide +kernel
  have hs : Standing genesisMicroBlock 2 [] archiveStore :=
    ⟨hempty,genesisMicroBlock,_,genesisMicroBlock,rfl,rfl,hstored,rfl,_,rfl,
      .inr ⟨rfl,by decide⟩,.inl rfl⟩
  obtain ⟨r,hr,hlength⟩ := map_eq_some_iff.mp hrun
  exact ⟨r,hr,hlength,exec_structured hs
    (Machine.along_of_decide hturn) hr⟩

/-- Two micro blocks of epoch three that are both marked as the last. -/
def doubledLast : List (MicroBlock ℕ Unit) :=
  let first := microBehind genesisMicroBlock 3 ⟨1,0,fun _ => 0⟩
  [first,microBehind first 3 ⟨1,0,fun _ => 0⟩]

/-- While the epoch block is missing, micro blocks of the epoch are accepted after the last one. -/
theorem last_microBlock_doubled :
    ∃ r,Machine.exec (BlockStore.archive Digests.sample 0 sampleVoting) genesisStore
      (doubledLast.map fun m => .micro m none) = some r ∧ ¬Structured genesisMicroBlock 2 r.2 := by
  have hrun : ((Machine.exec (BlockStore.archive Digests.sample 0 sampleVoting) genesisStore
      (doubledLast.map fun m => .micro m none)).map fun r =>
        r.2.filterMap Stored.micro?) = some doubledLast := by decide +kernel
  obtain ⟨r,hr,hlog⟩ := map_eq_some_iff.mp hrun
  refine ⟨r,hr,fun h => ?_⟩
  have hfinal := (List.pairwise_cons.mp h.final).2
  rw [hlog] at hfinal
  exact absurd hfinal (by decide +kernel)

end Sample

end LogosCore.Archive
