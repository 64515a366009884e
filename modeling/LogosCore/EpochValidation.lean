import LogosCore.MicroBlocks
import LogosCore.EpochTransition

/-! # Epoch blocks built and validated

An epoch block is built from the tips of the chains and from the tables of the elections and fees,
and a block that comes in is checked against the same tables. What the checks leave open, and what
the hash does not cover, is said by the main theorem. -/
namespace LogosCore.Archive

open Option Check
open Ledger (Validation Amount Epoch GovernanceStore)

inductive EVP
  | epochTip | microTip | voting | done

def EVP.rank : EVP → ℕ
  | .epochTip => 2
  | .microTip => 3
  | .voting => 5
  | .done => 6

/-- What the elections depend on besides the tables. -/
structure Voting (H : Type) where
  cfg : Ledger.Config H
  keys : H → H
  digest : Ledger.Delegate H → ℕ
  enabled : Bool
  genesisDelegates : List H

/-- The chains together with the tables of the ledger that an epoch block depends on. -/
structure Node (H σ : Type) where
  chains : BlockStore H σ
  tables : GovernanceStore H
  feePools : Table Epoch Amount

variable {H σ : Type} [DecidableEq H] [Zero H] (V : Voting H)

/-- The total supply with the inflation of an epoch; zero where it does not grow. -/
def inflate (supply : Amount) : Amount :=
  if supply.toNat * 1000035 / 1000000 ≤ supply.toNat then 0
  else BitVec.ofNat 128 (supply.toNat * 1000035 / 1000000)

/-- The number of request blocks that the tips of a micro block stand for, whatever their epoch. -/
def tipsTotal (tips : Fin numDelegates → Tip H) : BitVec 64 :=
  ((List.finRange numDelegates).map fun d =>
    if (tips d).digest ≠ 0 then ((tips d).sqn + 1).setWidth 64 else 0).sum

/-- `ComputeNumRBs`: the tips of the epoch; a tip must not be of a later one. -/
def BlockStore.computeNumRBs (s : BlockStore H σ) (epoch : BitVec 32) : Option (BitVec 64) :=
  if ∀ d : Fin numDelegates,(s.slotTip (BitVec.ofNat 8 d) epoch).epoch ≤ epoch then
    some ((List.finRange numDelegates).map fun d =>
      if (s.slotTip (BitVec.ofNat 8 d) epoch).epoch = epoch ∧
          (s.slotTip (BitVec.ofNat 8 d) epoch).digest ≠ 0
        then ((s.slotTip (BitVec.ofNat 8 d) epoch).sqn + 1).setWidth 64 else 0).sum
  else none

def ledgerEpoch (b : EpochBlock H σ) : Ledger.EpochBlock H :=
  ⟨b.epochNumber,b.previous,b.timestamp,b.body.delegates,b.body.isExtension,
    b.body.transactionFeePool,b.body.totalSupply⟩

namespace Node

variable (n : Node H σ)

/-- The tables of the elections with the epoch blocks of the chain. -/
def governance : GovernanceStore H :=
  { n.tables with
    epochs := Table.mapValues ledgerEpoch n.chains.epochs
    epochTip := n.chains.epochTip.map fun t => (t.digest,t.epoch) }

/-- `GetNextEpochDelegates`, with false for an extension. -/
def getNextEpochDelegates (nextEpoch : Epoch) : Option (List (Ledger.Delegate H) × Bool) :=
  Ledger.EpochVotingManager.getNextEpochDelegates V.cfg V.keys V.digest V.enabled n.governance
    nextEpoch

def feePool (epoch : Epoch) : Amount := (n.feePools.lookup epoch).getD 0

def validateEpochTip (b : EpochBlock H σ) : Validation Unit := do
  let previous ← found (n.chains.epochs.lookup b.previous) .gapPrevious
  let tip ← attempt n.chains.epochTip
  require (b.epochNumber = previous.epochNumber + 1 ∧ tip.digest = b.previous ∧
    tip.epoch = previous.epochNumber) .blockPosition
  let number ← attempt (n.chains.computeNumRBs b.epochNumber)
  require (b.body.totalRBs = previous.body.totalRBs + number) .invalidNumberBlocks

def validateMicroTip (b : EpochBlock H σ) : Validation Unit := do
  let last ← found (n.chains.microBlocks.lookup b.body.microBlockTip.digest) .invalidTip
  require (last.body.lastMicroBlock ≠ 0) .invalidRequest
  let tip ← attempt n.chains.microBlockTip
  require (b.body.microBlockTip = tip ∧ tip.epoch = b.epochNumber) .invalidTip
  let previous ← attempt (n.chains.epochs.lookup b.previous)
  require (b.body.totalRBs = previous.body.totalRBs + tipsTotal last.body.tips)
    .invalidNumberBlocks

def validateEpochDelegates (delegates : List (Ledger.Delegate H)) (nextEpoch : Epoch) :
    Validation Unit := do
  require (∀ d ∈ delegates,d.account ∈ V.genesisDelegates) .notDelegate
  let computed ← attempt (n.getNextEpochDelegates V nextEpoch)
  require (computed.1 = delegates) .notDelegate

def validateVoting (b : EpochBlock H σ) : Validation Unit := do
  require (b.primaryDelegate.toNat < numDelegates) .invalidRequest
  n.validateEpochDelegates V b.body.delegates (b.epochNumber + 1)

def validateEpoch (b : EpochBlock H σ) (status : Option ValidationStatus) : Validation Unit := do
  stage status EVP.epochTip.rank (n.validateEpochTip b)
  stage status EVP.microTip.rank (n.validateMicroTip b)
  stage status EVP.voting.rank (n.validateVoting V b)
  stage status EVP.done.rank
    (require (n.feePool b.epochNumber = b.body.transactionFeePool) .invalidFee)

def buildEpoch (now : BitVec 64) (version : BitVec 8) (sig : σ) : Option (EpochBlock H σ) := do
  let epochTip ← n.chains.epochTip
  let previous ← n.chains.epochs.lookup epochTip.digest
  let microTip ← n.chains.microBlockTip
  let _ ← n.chains.microBlocks.lookup microTip.digest
  let next ← n.getNextEpochDelegates V (previous.epochNumber + 1 + 1)
  let number ← n.chains.computeNumRBs (previous.epochNumber + 1)
  some ⟨⟨⟨0xff,previous.epochNumber + 1,0,0,now,epochTip.digest,sig⟩,version,
    ⟨microTip,n.feePool (previous.epochNumber + 1),inflate previous.body.totalSupply,next.1,
      previous.body.totalRBs + number,!next.2⟩⟩,0⟩

variable {n} {V} {b b' : EpochBlock H σ} {status : Option ValidationStatus}

structure Reading (H σ : Type) where
  epochTip : Tip H
  previous : EpochBlock H σ
  microTip : Tip H
  last : MicroBlock H σ
  next : List (Ledger.Delegate H) × Bool
  number : BitVec 64

structure Reads (V : Voting H) (n : Node H σ) (r : Reading H σ) : Prop where
  epochTip : n.chains.epochTip = some r.epochTip
  previous : n.chains.epochs.lookup r.epochTip.digest = some r.previous
  microTip : n.chains.microBlockTip = some r.microTip
  last : n.chains.microBlocks.lookup r.microTip.digest = some r.last
  next : n.getNextEpochDelegates V (r.previous.epochNumber + 1 + 1) = some r.next
  number : n.chains.computeNumRBs (r.previous.epochNumber + 1) = some r.number

def builtBody (n : Node H σ) (r : Reading H σ) : EpochBody H :=
  ⟨r.microTip,n.feePool (r.previous.epochNumber + 1),inflate r.previous.body.totalSupply,r.next.1,
    r.previous.body.totalRBs + r.number,!r.next.2⟩

structure Fills (V : Voting H) (n : Node H σ) (r : Reading H σ) (b : EpochBlock H σ) : Prop where
  previous : b.previous = r.epochTip.digest
  epochNumber : b.epochNumber = r.previous.epochNumber + 1
  epoch : r.epochTip.epoch = r.previous.epochNumber
  totalRBs : b.body.totalRBs = r.previous.body.totalRBs + r.number
  microBlockTip : b.body.microBlockTip = r.microTip
  last : r.last.body.lastMicroBlock ≠ 0
  microEpoch : r.microTip.epoch = r.previous.epochNumber + 1
  tips : b.body.totalRBs = r.previous.body.totalRBs + tipsTotal r.last.body.tips
  primary : b.primaryDelegate.toNat < numDelegates
  genesis : ∀ d ∈ b.body.delegates,d.account ∈ V.genesisDelegates
  delegates : b.body.delegates = r.next.1
  feePool : b.body.transactionFeePool = n.feePool (r.previous.epochNumber + 1)

/-- A block whose stages are all made is accepted exactly when it fits to the tips and tables. -/
theorem accepts_validateEpoch (hmade : Made status EVP.epochTip.rank) :
    (n.validateEpoch V b status).Accepts () ↔ ∃ r,Reads V n r ∧ Fills V n r b := by
  have hmade' : ∀ k,EVP.epochTip.rank ≤ k → Made status k :=
    fun k hk st hst => lt_of_lt_of_le (hmade st hst) hk
  simp only [validateEpoch,accepts_unit_bind,accepts_stage,hmade,
    hmade' EVP.microTip.rank (by decide),hmade' EVP.voting.rank (by decide),
    hmade' EVP.done.rank (by decide),true_implies,validateEpochTip,validateMicroTip,validateVoting,
    validateEpochDelegates,accepts_found_bind,accepts_attempt_bind,accepts_require]
  constructor
  · rintro ⟨⟨previous,hprevious,et,het,⟨hnumber,hdigest,hepoch⟩,number,hcount,htotal⟩,
      ⟨last,hlast,hflag,mt,hmt,⟨hmicro,hmicroEpoch⟩,previous',hprevious',htips⟩,
      ⟨hprimary,hgenesis,next,hnext,hdelegates⟩,hfee⟩
    obtain rfl : previous = previous' := some.inj (hprevious.symm.trans hprevious')
    rw [hnumber] at hcount hnext hfee hmicroEpoch
    rw [← hdigest] at hprevious
    rw [hmicro] at hlast
    exact ⟨⟨et,previous,mt,last,next,number⟩,⟨het,hprevious,hmt,hlast,hnext,hcount⟩,
      ⟨hdigest.symm,hnumber,hepoch,htotal,hmicro,hflag,hmicroEpoch,htips,hprimary,hgenesis,
        hdelegates.symm,hfee.symm⟩⟩
  · rintro ⟨r,hr,hf⟩
    have hprevious := hf.previous ▸ hr.previous
    refine ⟨⟨r.previous,hprevious,r.epochTip,hr.epochTip,
      ⟨hf.epochNumber,hf.previous.symm,hf.epoch⟩,r.number,?_,hf.totalRBs⟩,
      ⟨r.last,?_,hf.last,r.microTip,hr.microTip,⟨hf.microBlockTip,?_⟩,r.previous,hprevious,hf.tips⟩,
      ⟨hf.primary,hf.genesis,r.next,?_,hf.delegates.symm⟩,?_⟩
    · rw [hf.epochNumber]
      exact hr.number
    · rw [hf.microBlockTip]
      exact hr.last
    · rw [hf.epochNumber]
      exact hf.microEpoch
    · rw [hf.epochNumber]
      exact hr.next
    · rw [hf.epochNumber]
      exact hf.feePool.symm

theorem buildEpoch_eq_some {now : BitVec 64} {version : BitVec 8} {sig : σ} :
    n.buildEpoch V now version sig = some b ↔ ∃ r,Reads V n r ∧
      b = ⟨⟨⟨0xff,r.previous.epochNumber + 1,0,0,now,r.epochTip.digest,sig⟩,version,
        builtBody n r⟩,0⟩ := by
  simp only [buildEpoch,bind_eq_bind,bind_eq_some_iff,some.injEq]
  constructor
  · rintro ⟨et,het,previous,hprevious,mt,hmt,last,hlast,next,hnext,number,hnumber,rfl⟩
    exact ⟨⟨et,previous,mt,last,next,number⟩,⟨het,hprevious,hmt,hlast,hnext,hnumber⟩,rfl⟩
  · rintro ⟨r,hr,rfl⟩
    exact ⟨r.epochTip,hr.epochTip,r.previous,hr.previous,r.microTip,hr.microTip,r.last,hr.last,
      r.next,hr.next,r.number,hr.number,rfl⟩

theorem Reads.unique {r r' : Reading H σ} (h : Reads V n r) (h' : Reads V n r') : r = r' := by
  cases r
  obtain rfl := some.inj (h.epochTip.symm.trans h'.epochTip)
  obtain rfl := some.inj (h.previous.symm.trans h'.previous)
  obtain rfl := some.inj (h.microTip.symm.trans h'.microTip)
  obtain rfl := some.inj (h.last.symm.trans h'.last)
  obtain rfl := some.inj (h.next.symm.trans h'.next)
  obtain rfl := some.inj (h.number.symm.trans h'.number)
  rfl

/-- The tips are those of the blocks before, the last micro block ends the epoch that follows, its
tips count the request blocks of the epoch, and the next delegates are those of the genesis. -/
def Settled (V : Voting H) (n : Node H σ) : Prop :=
  ∀ r,Reads V n r → r.epochTip.epoch = r.previous.epochNumber ∧ r.last.body.lastMicroBlock ≠ 0 ∧
    r.microTip.epoch = r.previous.epochNumber + 1 ∧ r.number = tipsTotal r.last.body.tips ∧
    ∀ d ∈ r.next.1,d.account ∈ V.genesisDelegates

structure Filled (b b' : EpochBlock H σ) : Prop where
  previous : b'.previous = b.previous
  epochNumber : b'.epochNumber = b.epochNumber
  body : b'.body = b.body
  primary : b'.primaryDelegate.toNat < numDelegates

theorem filled_accepted_iff {now : BitVec 64} {version : BitVec 8} {sig : σ}
    (hbuild : n.buildEpoch V now version sig = some b) (hfilled : Filled b b') :
    (n.validateEpoch V b' none).Accepts () ↔ Settled V n := by
  obtain ⟨r,hr,rfl⟩ := buildEpoch_eq_some.mp hbuild
  have hmade : Made none EVP.epochTip.rank := fun st hst => by cases hst
  rw [accepts_validateEpoch hmade]
  constructor
  · rintro ⟨r',hr',hf⟩ r'' hr''
    obtain rfl := hr'.unique hr''
    refine ⟨hf.epoch,hf.last,hf.microEpoch,?_,?_⟩
    · exact add_left_cancel (hf.totalRBs.symm.trans hf.tips)
    · rw [← hf.delegates]
      exact hf.genesis
  · intro hsettled
    obtain ⟨hepoch,hlast,hmicro,hnumber,hdelegates⟩ := hsettled r hr
    have hbody := hfilled.body
    refine ⟨r,hr,⟨hfilled.previous,hfilled.epochNumber,hepoch,?_,?_,hlast,hmicro,?_,
      hfilled.primary,?_,?_,?_⟩⟩
    · rw [hbody]
      rfl
    · rw [hbody]
      rfl
    · rw [hbody,← hnumber]
      rfl
    · rw [hbody]
      exact hdelegates
    · rw [hbody]
      rfl
    · rw [hbody]
      rfl

/-- An accepted block is the one built, up to the total supply and the mark of an extension. -/
theorem accepted_eq_built (hmade : Made status EVP.epochTip.rank)
    (haccepts : (n.validateEpoch V b' status).Accepts ()) (now : BitVec 64) (version : BitVec 8)
    (sig : σ) :
    ∃ b,n.buildEpoch V now version sig = some b ∧ b'.body = { b.body with
        totalSupply := b'.body.totalSupply,isExtension := b'.body.isExtension } := by
  obtain ⟨r,hr,hf⟩ := (accepts_validateEpoch hmade).mp haccepts
  refine ⟨_,buildEpoch_eq_some.mpr ⟨r,hr,rfl⟩,?_⟩
  simp only [builtBody,← hf.microBlockTip,← hf.feePool,← hf.delegates,← hf.totalRBs]

end Node

theorem delegates_eq_iff {ds ds' : List (Ledger.Delegate H)}
    (himage : ds.map delegateImage = ds'.map delegateImage) :
    ds = ds' ↔ ds.map (·.startingTerm) = ds'.map (·.startingTerm) := by
  constructor
  · rintro rfl
    rfl
  · intro hterm
    induction ds generalizing ds' with
    | nil => exact (List.map_eq_nil_iff.mp himage.symm).symm
    | cons d ds ih =>
      cases ds' with
      | nil => cases himage
      | cons d' ds' =>
        obtain ⟨hd,himage⟩ := List.cons.inj himage
        obtain ⟨hd',hterm⟩ := List.cons.inj hterm
        rw [ih himage hterm]
        cases d
        simp_all [delegateImage]

/-- Blocks with one image agree exactly when the marks of extension and of starting terms do. -/
theorem body_eq_iff {b b' : EpochBody H} (himage : b.image = b'.image) :
    b = b' ↔ b.isExtension = b'.isExtension ∧
      b.delegates.map (·.startingTerm) = b'.delegates.map (·.startingTerm) := by
  have hdelegates := delegates_eq_iff (congrArg EpochImage.delegates himage)
  constructor
  · rintro rfl
    exact ⟨rfl,rfl⟩
  · rintro ⟨hextension,hterm⟩
    cases b
    simp_all [EpochBody.image]

/-- The built block is accepted exactly in a settled node. What is accepted agrees with it exactly
when supply and extension mark do, and blocks with one hash image exactly when the marks of
extension and starting terms do. -/
theorem epoch_validation_exact (n : Node H σ) :
    (∀ now version (sig : σ) b b',n.buildEpoch V now version sig = some b → Node.Filled b b' →
      ((n.validateEpoch V b' none).Accepts () ↔ Node.Settled V n)) ∧
    (∀ b' status,Made status EVP.epochTip.rank → (n.validateEpoch V b' status).Accepts () →
      ∀ now version (sig : σ),∃ b,n.buildEpoch V now version sig = some b ∧
        (b'.body = b.body ↔ b'.body.totalSupply = b.body.totalSupply ∧
          b'.body.isExtension = b.body.isExtension)) ∧
    ∀ b b' : EpochBlock H σ,b.image true = b'.image true → b.body.image = b'.body.image →
      (b.body = b'.body ↔ b.body.isExtension = b'.body.isExtension ∧
        b.body.delegates.map (·.startingTerm) = b'.body.delegates.map (·.startingTerm)) := by
  refine ⟨fun now version sig b b' hbuild hfilled => Node.filled_accepted_iff hbuild hfilled,
    fun b' status hmade haccepts now version sig => ?_,fun b b' _ himage => body_eq_iff himage⟩
  obtain ⟨b,hb,hbody⟩ := Node.accepted_eq_built hmade haccepts now version sig
  refine ⟨b,hb,?_⟩
  constructor
  · intro heq
    rw [heq]
    exact ⟨rfl,rfl⟩
  · rintro ⟨hsupply,hextension⟩
    rw [hbody,hsupply,hextension]

section Sample

def sampleVoting : Voting ℕ :=
  ⟨Ledger.Config.sample,id,fun _ => 0,false,(List.range 32).map (· + 1)⟩

def genesisDelegate (i : ℕ) : Ledger.Delegate ℕ := ⟨i + 1,i + 1,1,1,1,1,false⟩

def thirdEpoch : EpochBlock ℕ Unit :=
  sampleBlock 0 3 3 0 ⟨0,0,1000000,(List.range 32).map genesisDelegate,0,false⟩

/-- The last micro block of epoch four, with a tip of the first delegate. -/
def fourthMicroBlock (tip : Tip ℕ) : MicroBlock ℕ Unit :=
  sampleBlock 0 4 9 0 ⟨1,0,fun d => if d = 0 then tip else 0⟩

def sampleNode (tip : Tip ℕ) : Node ℕ Unit where
  chains := { BlockStore.empty with
    requestTips := AList.singleton (tipKey 0 4) tip
    microBlocks := AList.singleton (Digests.sample.microBlockHash (fourthMicroBlock tip))
      (fourthMicroBlock tip)
    microBlockTip := some (tipOf (fourthMicroBlock tip)
      (Digests.sample.microBlockHash (fourthMicroBlock tip)))
    epochs := AList.singleton (Digests.sample.epochHash thirdEpoch) thirdEpoch
    epochTip := some (tipOf thirdEpoch (Digests.sample.epochHash thirdEpoch)) }
  tables := .empty
  feePools := ∅

def proposed (b : EpochBlock ℕ Unit) : EpochBlock ℕ Unit := { b with primaryDelegate := 5 }

theorem epoch_validation_exact_sample :
    ∃ b,(sampleNode ⟨4,0,7⟩).buildEpoch sampleVoting 0 0 () = some b ∧
      ((sampleNode ⟨4,0,7⟩).validateEpoch sampleVoting (proposed b) none).Accepts () ∧
      Node.Settled sampleVoting (sampleNode ⟨4,0,7⟩) ∧
      (∃ b',(sampleNode ⟨4,0,7⟩).buildEpoch sampleVoting 0 0 () = some b' ∧
        (proposed b).body = b'.body) ∧ (proposed b).body = b.body := by
  have hrun : (((sampleNode ⟨4,0,7⟩).buildEpoch sampleVoting 0 0 ()).map fun b => decide
      (((sampleNode ⟨4,0,7⟩).validateEpoch sampleVoting (proposed b) none).Accepts ())) =
        some true := by decide +kernel
  obtain ⟨b,hb,haccepts⟩ := map_eq_some_iff.mp hrun
  have haccepts := of_decide_eq_true haccepts
  obtain ⟨hbuilt,haccepted,himage⟩ := epoch_validation_exact sampleVoting (sampleNode ⟨4,0,7⟩)
  have hmade : Made none EVP.epochTip.rank := by decide
  have hprimary : (5 : BitVec 8).toNat < numDelegates := by decide
  obtain ⟨b',hb',hagree⟩ := haccepted (proposed b) none hmade haccepts 0 0 ()
  obtain rfl : b = b' := some.inj (hb.symm.trans hb')
  exact ⟨b,hb,haccepts,(hbuilt 0 0 () b (proposed b) hb ⟨rfl,rfl,rfl,hprimary⟩).mp haccepts,
    ⟨b,hb,hagree.mpr ⟨rfl,rfl⟩⟩,(himage (proposed b) b rfl rfl).mpr ⟨rfl,rfl⟩⟩

def misstated (b : EpochBlock ℕ Unit) : EpochBlock ℕ Unit :=
  { proposed b with body := { b.body with totalSupply := 0,isExtension := !b.body.isExtension } }

def restarted : EpochBlock ℕ Unit :=
  { thirdEpoch with body := { thirdEpoch.body with
    delegates := thirdEpoch.body.delegates.map ({ · with startingTerm := true }) } }

/-- The built block is rejected where a delegate was idle. A wrong supply or extension mark is
accepted, and the hash does not cover starting terms. -/
theorem epoch_fields_open :
    (∃ b,(sampleNode ⟨3,0,7⟩).buildEpoch sampleVoting 0 0 () = some b ∧
      ¬((sampleNode ⟨3,0,7⟩).validateEpoch sampleVoting (proposed b) none).Accepts ()) ∧
    (∃ b,(sampleNode ⟨4,0,7⟩).buildEpoch sampleVoting 0 0 () = some b ∧
      ((sampleNode ⟨4,0,7⟩).validateEpoch sampleVoting (misstated b) none).Accepts () ∧
      (misstated b).body.totalSupply ≠ b.body.totalSupply ∧
      (misstated b).body.isExtension ≠ b.body.isExtension) ∧
    ∃ b b' : EpochBlock ℕ Unit,b.image true = b'.image true ∧ b.body.image = b'.body.image ∧
      b.body.delegates ≠ b'.body.delegates := by
  have hidle : (((sampleNode ⟨3,0,7⟩).buildEpoch sampleVoting 0 0 ()).map fun b => decide
      (((sampleNode ⟨3,0,7⟩).validateEpoch sampleVoting (proposed b) none).Accepts ())) =
        some false := by decide +kernel
  have hopen : (((sampleNode ⟨4,0,7⟩).buildEpoch sampleVoting 0 0 ()).map fun b => decide
      (((sampleNode ⟨4,0,7⟩).validateEpoch sampleVoting (misstated b) none).Accepts () ∧
        (misstated b).body.totalSupply ≠ b.body.totalSupply ∧
        (misstated b).body.isExtension ≠ b.body.isExtension)) = some true := by decide +kernel
  obtain ⟨b,hb,hrejects⟩ := map_eq_some_iff.mp hidle
  obtain ⟨b',hb',haccepts⟩ := map_eq_some_iff.mp hopen
  refine ⟨⟨b,hb,of_decide_eq_false hrejects⟩,⟨b',hb',of_decide_eq_true haccepts⟩,
    thirdEpoch,restarted,?_⟩
  decide +kernel

end Sample

end LogosCore.Archive
