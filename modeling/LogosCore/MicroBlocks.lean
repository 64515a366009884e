import LogosCore.EpochLinks

/-! # Micro blocks

A micro block says for each delegate how far its chain of request blocks has come. The validation
counts the blocks that were added from the numbers in the tips; the tips are sound if the chains
bear the numbers out. -/
namespace LogosCore.Archive

open Finset Option Check
open Ledger (Validation)

inductive MVP
  | previous | tipsFirst | tipsDone | done

def MVP.rank : MVP → ℕ
  | .previous => 2
  | .tipsFirst => 3
  | .tipsDone => 4
  | .done => 5

variable {H σ : Type} [DecidableEq H] [Zero H] (D : Digests H)

/-- The number of blocks between two vectors of tips, from the numbers in the epoch. -/
def addedBlocks (epoch : BitVec 32) (new old : Fin numDelegates → Tip H) : BitVec 32 :=
  ((List.finRange numDelegates).map fun d =>
    (new d).nthBlockInEpoch epoch - (old d).nthBlockInEpoch epoch).sum

namespace BlockStore

variable (s : BlockStore H σ)

/-- Every tip that is looked at has to be there. -/
def validateTips (m : MicroBlock H σ) (status : Option ValidationStatus) : Validation Unit :=
  (List.finRange numDelegates).forM fun d =>
    require (Examined status MVP.tipsFirst.rank d → (m.body.tips d).digest = 0 ∨
      (m.body.tips d).digest ∈ s.requestBlocks) .invalidRequest

/-- The checks against the end of the chain of micro blocks and the last epoch block. -/
def validateMicroChain (m : MicroBlock H σ) : Validation Unit := do
  let previous ← attempt (s.microBlocks.lookup m.previous)
  require (m.sequence = previous.sequence + 1) .wrongSequenceNumber
  let tip ← attempt s.microBlockTip
  require (tip = tipOf previous m.previous) .invalidTip
  require (addedBlocks m.epochNumber m.body.tips previous.body.tips = m.body.numberBatchBlocks)
    .invalidNumberBlocks
  require (m.primaryDelegate.toNat < numDelegates) .notDelegate
  let epochTip ← attempt s.epochTip
  let _ ← attempt (s.epochs.lookup epochTip.digest)
  require (epochTip.epoch + 1 = m.epochNumber) .invalidTip

def validateMicroBlock (m : MicroBlock H σ) (status : Option ValidationStatus) :
    Validation Unit := do
  stage status MVP.previous.rank (require (m.previous ∈ s.microBlocks) .gapPrevious)
  stage status MVP.tipsDone.rank (s.validateTips m status)
  stage status MVP.done.rank (s.validateMicroChain m)

def applyMicroBlock (m : MicroBlock H σ) : Option (BlockStore H σ) :=
  if D.microBlockHash m ∈ s.microBlocks then some s
  else do
    let blocks ← updateNext (s.microBlocks.insert (D.microBlockHash m) m) m.previous
      (D.microBlockHash m)
    some { s with
      microBlocks := blocks
      microBlockTip := some (tipOf m (D.microBlockHash m)) }

/-- What a micro block that is accepted has to do with the chain before it. -/
structure Follows (s : BlockStore H σ) (m p : MicroBlock H σ) : Prop where
  previous : s.microBlocks.lookup m.previous = some p
  sequence : m.sequence = p.sequence + 1
  tip : s.microBlockTip = some (tipOf p m.previous)
  number : addedBlocks m.epochNumber m.body.tips p.body.tips = m.body.numberBatchBlocks
  delegate : m.primaryDelegate.toNat < numDelegates
  epoch : ∃ t,s.epochTip = some t ∧ t.digest ∈ s.epochs ∧ t.epoch + 1 = m.epochNumber

variable {s} {m : MicroBlock H σ}

theorem accepts_validateMicroChain : (s.validateMicroChain m).Accepts () ↔ ∃ p,Follows s m p := by
  simp only [validateMicroChain,accepts_attempt_bind,accepts_require_bind,accepts_require]
  constructor
  · rintro ⟨p,hp,hseq,t,ht,rfl,hnumber,hdelegate,t',ht',e,he,hepoch⟩
    refine ⟨p,hp,hseq,ht,hnumber,hdelegate,t',ht',?_,hepoch⟩
    rw [← AList.lookup_isSome,he]
    rfl
  · rintro ⟨p,hp,hseq,ht,hnumber,hdelegate,t',ht',he,hepoch⟩
    obtain ⟨e,he⟩ := isSome_iff_exists.mp (AList.lookup_isSome.mpr he)
    exact ⟨p,hp,hseq,_,ht,rfl,hnumber,hdelegate,t',ht',e,he,hepoch⟩

/-- A block is accepted when it follows the chain and its tips are there. -/
theorem accepts_validateMicroBlock {status : Option ValidationStatus} :
    (s.validateMicroBlock m status).Accepts () ↔
      (Made status MVP.previous.rank → m.previous ∈ s.microBlocks) ∧
      (Made status MVP.tipsDone.rank → ∀ d : Fin numDelegates,
        Examined status MVP.tipsFirst.rank d → (m.body.tips d).digest = 0 ∨
          (m.body.tips d).digest ∈ s.requestBlocks) ∧
      (Made status MVP.done.rank → ∃ p,Follows s m p) := by
  simp only [validateMicroBlock,accepts_unit_bind,accepts_stage,validateTips,accepts_forM,
    accepts_require,accepts_validateMicroChain,List.mem_finRange,true_implies]

end BlockStore

open BlockStore

/-- The first block of an epoch comes after blocks of earlier epochs. -/
def EpochsOrdered (s : BlockStore H σ) : Prop :=
  ∀ h b,s.requestBlocks.lookup h = some b → b.sequence = 0 →
    ∀ p ∈ s.requestBlocks.lookup b.previous,p.epochNumber < b.epochNumber

/-- The chains are whole and in the order of the epochs, and zero is no block. -/
structure ChainsOrdered (s : BlockStore H σ) : Prop extends ChainsIntact s where
  zero : (0 : H) ∉ s.requestBlocks
  earlier : EpochsOrdered s

/-- The tip is that of a stored block of the delegate. -/
def Names (s : BlockStore H σ) (d : Fin numDelegates) (t : Tip H) : Prop :=
  ∃ b ∈ s.requestBlocks.lookup t.digest,b.primaryDelegate = BitVec.ofNat 8 d ∧ t = tipOf b t.digest

/-- A tip that names a block names one of the delegate. -/
def Sound (s : BlockStore H σ) (d : Fin numDelegates) (t : Tip H) : Prop :=
  t.digest ≠ 0 → Names s d t

/-- The chain leads from the new tip back to the old one over the given blocks. -/
def Advances (s : BlockStore H σ) (old new : Tip H) (bs : List (RequestBlock H σ)) : Prop :=
  new = old ∧ bs = [] ∨ bs ≠ [] ∧ s.requestBlocks.Visits (·.previous) old.digest new.digest bs

/-- The tips name stored blocks of their delegates, the chains lead from them back to the tips
before, and the number is that of the blocks on the way. -/
structure TipsSound (s : BlockStore H σ) (p m : MicroBlock H σ) : Prop where
  named : ∀ d,Sound s d (m.body.tips d)
  counted : ∃ bs : Fin numDelegates → List (RequestBlock H σ),
    (∀ d,Advances s (p.body.tips d) (m.body.tips d) (bs d)) ∧
      m.body.numberBatchBlocks.toNat = ∑ d,(bs d).length

/-- The first block of the delegate in the epoch, if there is one, is behind the given hash. -/
def StartsBehind (s : BlockStore H σ) (d : Fin numDelegates) (e : BitVec 32) (hash : H) : Prop :=
  ∀ h b,s.requestBlocks.lookup h = some b → slot b = tipKey d e → b.sequence = 0 → b.previous = hash

/-- A tip stays, or it moves to a block of the epoch that comes after the one it was at. -/
def MovesWithin (s : BlockStore H σ) (d : Fin numDelegates) (e : BitVec 32) (old new : Tip H) :
    Prop :=
  new = old ∨ new.digest ≠ 0 ∧ new.epoch = e ∧ Names s d new ∧
    (old.epoch = e ∧ old.digest ≠ 0 → old.sqn < new.sqn) ∧
    (¬(old.epoch = e ∧ old.digest ≠ 0) → StartsBehind s d e old.digest)

/-- The number of the block of a tip in the epoch, counted from one. -/
def place (e : BitVec 32) (t : Tip H) : ℕ :=
  if e = t.epoch ∧ t.digest ≠ 0 then t.sqn.toNat + 1 else 0

theorem nthBlockInEpoch_eq_place (e : BitVec 32) (t : Tip H) :
    t.nthBlockInEpoch e = BitVec.ofNat 32 (place e t) := by
  unfold Tip.nthBlockInEpoch place
  split
  · simp [BitVec.ofNat_add]
  · rfl

section Walk
variable {s : BlockStore H σ} {d : Fin numDelegates} {e : BitVec 32} {t t' old new : Tip H}
  {bs : List (RequestBlock H σ)}

/-- What stands before a block: one of its epoch, or for the first one of an earlier epoch or
nothing. -/
structure IsBefore (s : BlockStore H σ) (t t' : Tip H) : Prop where
  block : ∃ b,s.requestBlocks.lookup t.digest = some b ∧ b.previous = t'.digest
  rest : t.sqn ≠ 0 → t'.digest ≠ 0 ∧ t'.epoch = t.epoch ∧ t'.sqn + 1 = t.sqn
  first : t.sqn = 0 → t'.digest ≠ 0 → t'.epoch < t.epoch

theorem Names.ne_zero (hs : ChainsOrdered s) (h : Names s d t) : t.digest ≠ 0 := by
  obtain ⟨b,hb,-⟩ := h
  intro hzero
  rw [hzero,AList.lookup_eq_none.mpr hs.zero] at hb
  cases hb

/-- Two tips with one digest are the same if both name a block. -/
theorem Names.unique (h : Names s d t) (h' : Names s d t') (heq : t.digest = t'.digest) :
    t = t' := by
  obtain ⟨b,hb,-,ht⟩ := h
  obtain ⟨b',hb',-,ht'⟩ := h'
  rw [heq] at hb ht
  obtain rfl : b = b' := some.inj (hb.symm.trans hb')
  exact ht.trans ht'.symm

theorem Names.exists_before (hs : ChainsOrdered s) (h : Names s d t) :
    ∃ t',Sound s d t' ∧ IsBefore s t t' := by
  obtain ⟨b,hb,hdelegate,ht⟩ := h
  have hsqn : t.sqn = b.sequence := congrArg Tip.sqn ht
  have hepoch : t.epoch = b.epochNumber := congrArg Tip.epoch ht
  by_cases hprevious : b.previous = 0
  · refine ⟨0,fun hne => absurd rfl hne,⟨b,hb,hprevious⟩,fun hne => ?_,fun _ hne => absurd rfl hne⟩
    obtain ⟨p,hp,-⟩ := hs.linked _ b hb (hsqn ▸ hne)
    rw [hprevious,AList.lookup_eq_none.mpr hs.zero] at hp
    cases hp
  · obtain ⟨p,hp,hpd⟩ := hs.previousWithin _ b hb hprevious
    refine ⟨tipOf p b.previous,fun _ => ⟨p,hp,hpd.trans hdelegate,rfl⟩,⟨b,hb,rfl⟩,fun hne => ?_,
      fun hzero _ => ?_⟩
    · obtain ⟨q,hq,hslot,hseq,-⟩ := hs.linked _ b hb (hsqn ▸ hne)
      obtain rfl : p = q := some.inj (hp.symm.trans hq)
      refine ⟨hprevious,?_,?_⟩
      · rw [hepoch]
        exact congrArg Prod.snd hslot
      · rw [hsqn]
        exact hseq
    · rw [hepoch]
      exact hs.earlier _ b hb (hsqn ▸ hzero) p hp

theorem place_of_epoch (hdigest : t.digest ≠ 0) (hepoch : t.epoch = e) :
    place e t = t.sqn.toNat + 1 := by
  rw [place,if_pos ⟨hepoch.symm,hdigest⟩]

theorem place_of_not (h : ¬(t.epoch = e ∧ t.digest ≠ 0)) : place e t = 0 := by
  rw [place,if_neg fun hc => h ⟨hc.1.symm,hc.2⟩]

theorem IsBefore.place_eq (h : IsBefore s t t') (hne : t.digest ≠ 0) (hepoch : t.epoch = e) :
    place e t = place e t' + 1 := by
  rw [place_of_epoch hne hepoch]
  by_cases hsqn : t.sqn = 0
  · have hfirst : place e t' = 0 := place_of_not fun hc => by
      have hlt := h.first hsqn hc.2
      bv_omega
    rw [hfirst,hsqn]
    rfl
  · obtain ⟨hne',hepoch',hsucc⟩ := h.rest hsqn
    rw [place_of_epoch hne' (hepoch'.trans hepoch)]
    bv_omega

theorem IsBefore.place_le (h : IsBefore s t t') : place e t ≤ place e t' + 1 := by
  by_cases hc : t.epoch = e ∧ t.digest ≠ 0
  · exact (h.place_eq hc.2 hc.1).le
  · rw [place_of_not hc]
    exact Nat.zero_le _

theorem IsBefore.visits_cons (h : IsBefore s t t') (hne : t.digest ≠ old.digest)
    (hvisits : s.requestBlocks.Visits (·.previous) old.digest t'.digest bs) :
    ∃ b,s.requestBlocks.Visits (·.previous) old.digest t.digest (b::bs) := by
  obtain ⟨b,hb,hprevious⟩ := h.block
  refine ⟨b,hne,hb,?_⟩
  change s.requestBlocks.Visits (·.previous) old.digest b.previous bs
  rw [hprevious]
  exact hvisits

/-- The first step of the walk back from a tip. -/
theorem Names.visits_cons (hs : ChainsOrdered s) (h : Names s d t) {b : RequestBlock H σ}
    (hvisits : s.requestBlocks.Visits (·.previous) old.digest t.digest (b::bs)) :
    ∃ t',Sound s d t' ∧ IsBefore s t t' ∧ b.previous = t'.digest ∧
      s.requestBlocks.Visits (·.previous) old.digest t'.digest bs := by
  obtain ⟨-,hb,hrest⟩ := hvisits
  obtain ⟨t',hsound,hbefore⟩ := h.exists_before hs
  obtain ⟨b',hb',hprevious⟩ := hbefore.block
  obtain rfl : b = b' := some.inj (hb.symm.trans hb')
  exact ⟨t',hsound,hbefore,hprevious,hprevious ▸ hrest⟩

/-- The tip at which a walk back ends is the one it was to reach. -/
theorem Sound.place_eq (h : Sound s d t) (hold : Sound s d old) (heq : t.digest = old.digest) :
    place e t = place e old := by
  by_cases hzero : t.digest = 0
  · rw [place_of_not fun hc => hc.2 hzero,place_of_not fun hc => hc.2 (heq ▸ hzero)]
  · rw [(h hzero).unique (hold (heq ▸ hzero)) heq]

variable (hs : ChainsOrdered s)
include hs

theorem visits_names (hsound : Sound s d t) {b : RequestBlock H σ}
    (hvisits : s.requestBlocks.Visits (·.previous) old.digest t.digest (b::bs)) : Names s d t := by
  refine hsound fun hzero => ?_
  have hb := hvisits.2.1
  rw [hzero,AList.lookup_eq_none.mpr hs.zero] at hb
  cases hb

/-- A walk back passes at least as many blocks as the numbers in the epoch say. -/
theorem place_le_of_visits (hsound : Sound s d t) (hold : Sound s d old)
    (hvisits : s.requestBlocks.Visits (·.previous) old.digest t.digest bs) :
    place e t ≤ place e old + bs.length := by
  induction bs generalizing t with
  | nil => exact (hsound.place_eq hold hvisits).le
  | cons b bs ih =>
    obtain ⟨t',hsound',hbefore,-,hrest⟩ := (visits_names hs hsound hvisits).visits_cons hs hvisits
    have hle := ih hsound' hrest
    have hone : place e t ≤ place e t' + 1 := hbefore.place_le
    rw [List.length_cons]
    omega

/-- Where numbers are exact, the walk leaves the epoch only from its first block. -/
theorem visits_within (hsound : Sound s d t) (hold : Sound s d old)
    (hvisits : s.requestBlocks.Visits (·.previous) old.digest t.digest bs) (hne : bs ≠ [])
    (hexact : place e t = place e old + bs.length) :
    t.epoch = e ∧ (place e old = 0 → StartsBehind s d e old.digest) := by
  induction bs generalizing t with
  | nil => exact absurd rfl hne
  | cons b bs ih =>
    have hnames := visits_names hs hsound hvisits
    obtain ⟨t',hsound',hbefore,hprevious,hrest⟩ := hnames.visits_cons hs hvisits
    have hle : place e t' ≤ place e old + bs.length := place_le_of_visits hs hsound' hold hrest
    have hone : place e t ≤ place e t' + 1 := hbefore.place_le
    rw [List.length_cons] at hexact
    have hepoch : t.epoch = e := by
      by_contra hother
      have hzero := place_of_not fun hc : t.epoch = e ∧ t.digest ≠ 0 => hother hc.1
      omega
    refine ⟨hepoch,?_⟩
    cases bs with
    | cons c cs => exact (ih hsound' hrest (List.cons_ne_nil _ _) (by omega)).2
    | nil =>
      intro hzero k first hfirst hslot hseq
      -- the only block on the way has number zero, as the first block of the epoch has
      have hplace := place_of_epoch (hnames.ne_zero hs) hepoch
      obtain ⟨b',hb',hdelegate,ht⟩ := hnames
      obtain rfl : b = b' := some.inj (hvisits.2.1.symm.trans hb')
      simp only [List.length_nil] at hexact
      have hbseq : b.sequence = 0 := by
        have hsqn : t.sqn = b.sequence := congrArg Tip.sqn ht
        bv_omega
      have hbslot : slot b = tipKey d e :=
        Prod.ext hdelegate ((congrArg Tip.epoch ht).symm.trans hepoch)
      have hk := hs.unique _ _ _ _ hfirst hb' (hslot.trans hbslot.symm) (hseq.trans hbseq.symm)
      rw [hk,hb'] at hfirst
      obtain rfl := some.inj hfirst
      exact hprevious.trans hrest

theorem Advances.place_le (hsound : Sound s d new) (hold : Sound s d old)
    (h : Advances s old new bs) : place e new ≤ place e old + bs.length := by
  rcases h with ⟨rfl,rfl⟩ | ⟨-,hvisits⟩
  · exact le_rfl
  · exact place_le_of_visits hs hsound hold hvisits

theorem Advances.movesWithin (hsound : Sound s d new)
    (hold : Sound s d old) (h : Advances s old new bs)
    (hexact : place e new = place e old + bs.length) : MovesWithin s d e old new := by
  rcases h with ⟨rfl,rfl⟩ | ⟨hne,hvisits⟩
  · exact .inl rfl
  · obtain ⟨hepoch,hstart⟩ := visits_within hs hsound hold hvisits hne hexact
    have hnames : Names s d new := by
      obtain ⟨b,cs,rfl⟩ := List.exists_cons_of_ne_nil hne
      exact visits_names hs hsound hvisits
    refine .inr ⟨hnames.ne_zero hs,hepoch,hnames,fun hc => ?_,fun hc => hstart (place_of_not hc)⟩
    have hlength := List.length_pos_iff.mpr hne
    rw [place_of_epoch (hnames.ne_zero hs) hepoch,place_of_epoch hc.2 hc.1] at hexact
    bv_omega

/-- The walk back from a block of the epoch to another. -/
theorem Names.visits_within_epoch (h : Names s d t) (hepoch : t.epoch = e)
    (hold : Names s d old) (holdEpoch : old.epoch = e) (hle : old.sqn ≤ t.sqn) :
    ∃ bs,s.requestBlocks.Visits (·.previous) old.digest t.digest bs ∧
      place e t = place e old + bs.length := by
  generalize hn : t.sqn.toNat - old.sqn.toNat = n
  induction n generalizing t with
  | zero =>
    have hsqn : t.sqn = old.sqn := by bv_omega
    obtain ⟨b,hb,hdelegate,ht⟩ := h
    obtain ⟨b',hb',hdelegate',hold'⟩ := hold
    have hseq : b.sequence = b'.sequence :=
      (congrArg Tip.sqn ht).symm.trans (hsqn.trans (congrArg Tip.sqn hold'))
    have hslot : slot b = slot b' := by
      refine Prod.ext (hdelegate.trans hdelegate'.symm) ?_
      exact (congrArg Tip.epoch ht).symm.trans (hepoch.trans
        (holdEpoch.symm.trans (congrArg Tip.epoch hold')))
    have heq := hs.unique _ _ _ _ hb hb' hslot hseq
    have hnames : Names s d t := ⟨b,hb,hdelegate,ht⟩
    refine ⟨[],heq,?_⟩
    rw [hnames.unique ⟨b',hb',hdelegate',hold'⟩ heq]
    rfl
  | succ n ih =>
    have hsqn : t.sqn ≠ 0 := by bv_omega
    have hne : t.digest ≠ old.digest := fun heq => by
      rw [h.unique hold heq] at hn
      omega
    obtain ⟨t',hsound',hbefore⟩ := h.exists_before hs
    obtain ⟨hne',hepoch',hsucc⟩ := hbefore.rest hsqn
    obtain ⟨bs,hvisits,hplace⟩ := ih (hsound' hne') (hepoch'.trans hepoch) (by bv_omega)
      (by bv_omega)
    obtain ⟨b,hvisits⟩ := hbefore.visits_cons hne hvisits
    refine ⟨b::bs,hvisits,?_⟩
    rw [hbefore.place_eq (h.ne_zero hs) hepoch,hplace,List.length_cons]
    omega

theorem Names.digest_ne (h : Names s d t) (hepoch : t.epoch = e)
    (hold : Sound s d old) (hother : ¬(old.epoch = e ∧ old.digest ≠ 0)) :
    t.digest ≠ old.digest := by
  intro heq
  have hzero : old.digest ≠ 0 := heq ▸ h.ne_zero hs
  rw [h.unique (hold hzero) heq] at hepoch
  exact hother ⟨hepoch,hzero⟩

theorem Names.visits_to_start (h : Names s d t) (hepoch : t.epoch = e)
    (hold : Sound s d old) (hother : ¬(old.epoch = e ∧ old.digest ≠ 0))
    (hstart : StartsBehind s d e old.digest) :
    ∃ bs,bs ≠ [] ∧ s.requestBlocks.Visits (·.previous) old.digest t.digest bs ∧
      place e t = place e old + bs.length := by
  generalize hn : t.sqn.toNat = n
  induction n generalizing t with
  | zero =>
    have hsqn : t.sqn = 0 := by bv_omega
    have hne := h.digest_ne hs hepoch hold hother
    have hplace : place e t = 1 := by
      rw [place_of_epoch (h.ne_zero hs) hepoch,hsqn]
      rfl
    obtain ⟨b,hb,hdelegate,ht⟩ := h
    have hprevious := hstart _ b hb
      (Prod.ext hdelegate ((congrArg Tip.epoch ht).symm.trans hepoch))
      ((congrArg Tip.sqn ht).symm.trans hsqn)
    refine ⟨[b],List.cons_ne_nil _ _,⟨hne,hb,hprevious⟩,?_⟩
    rw [hplace,place_of_not hother]
    rfl
  | succ n ih =>
    have hsqn : t.sqn ≠ 0 := by bv_omega
    have hne := h.digest_ne hs hepoch hold hother
    obtain ⟨t',hsound',hbefore⟩ := h.exists_before hs
    obtain ⟨hne',hepoch',hsucc⟩ := hbefore.rest hsqn
    obtain ⟨bs,-,hvisits,hplace⟩ := ih (hsound' hne') (hepoch'.trans hepoch) (by bv_omega)
    obtain ⟨b,hvisits⟩ := hbefore.visits_cons hne hvisits
    refine ⟨b::bs,List.cons_ne_nil _ _,hvisits,?_⟩
    rw [hbefore.place_eq (h.ne_zero hs) hepoch,hplace,List.length_cons]
    omega

omit hs

theorem MovesWithin.sound (hold : Sound s d old) (h : MovesWithin s d e old new) :
    Sound s d new := by
  rcases h with rfl | ⟨-,-,hnames,-⟩
  · exact hold
  · exact fun _ => hnames

/-- A tip that moves within the epoch passes as many blocks as its number goes up. -/
theorem MovesWithin.advances (hs : ChainsOrdered s) (hold : Sound s d old)
    (h : MovesWithin s d e old new) :
    ∃ bs,Advances s old new bs ∧ place e new = place e old + bs.length := by
  rcases h with rfl | ⟨hne,hepoch,hnames,hlater,hstart⟩
  · exact ⟨[],.inl ⟨rfl,rfl⟩,rfl⟩
  · by_cases hc : old.epoch = e ∧ old.digest ≠ 0
    · have hlt := hlater hc
      obtain ⟨bs,hvisits,hplace⟩ :=
        hnames.visits_within_epoch hs hepoch (hold hc.2) hc.1 (by bv_omega)
      refine ⟨bs,.inr ⟨?_,hvisits⟩,hplace⟩
      rintro rfl
      rw [hnames.unique (hold hc.2) hvisits] at hlt
      bv_omega
    · obtain ⟨bs,hbs,hvisits,hplace⟩ := hnames.visits_to_start hs hepoch hold hc (hstart hc)
      exact ⟨bs,.inr ⟨hbs,hvisits⟩,hplace⟩

end Walk

theorem sum_place_sub (e : BitVec 32) (new old : Fin numDelegates → Tip H)
    (ds : List (Fin numDelegates)) :
    (ds.map fun d => (new d).nthBlockInEpoch e - (old d).nthBlockInEpoch e).sum +
      BitVec.ofNat 32 (ds.map fun d => place e (old d)).sum =
        BitVec.ofNat 32 (ds.map fun d => place e (new d)).sum := by
  induction ds with
  | nil => rfl
  | cons d ds ih =>
    simp only [List.map_cons,List.sum_cons,BitVec.ofNat_add,← ih]
    rw [nthBlockInEpoch_eq_place e (new d),nthBlockInEpoch_eq_place e (old d)]
    ring

theorem addedBlocks_add (e : BitVec 32) (new old : Fin numDelegates → Tip H) :
    addedBlocks e new old + BitVec.ofNat 32 (∑ d,place e (old d)) =
      BitVec.ofNat 32 (∑ d,place e (new d)) := by
  simpa only [addedBlocks,Fin.sum_univ_def] using sum_place_sub e new old (List.finRange numDelegates)

/-- Accepted tips are sound exactly when each stays or moves on within the epoch. -/
theorem tipsSound_iff {s : BlockStore H σ} {m p : MicroBlock H σ}
    {status : Option ValidationStatus} (hs : ChainsOrdered s)
    (hprevious : s.microBlocks.lookup m.previous = some p) (hold : ∀ d,Sound s d (p.body.tips d))
    (hfit : ∑ d,place m.epochNumber (p.body.tips d) + m.body.numberBatchBlocks.toNat < 2^32)
    (hmade : Made status MVP.done.rank) (haccepts : (s.validateMicroBlock m status).Accepts ()) :
    TipsSound s p m ↔ (∀ d,MovesWithin s d m.epochNumber (p.body.tips d) (m.body.tips d)) ∧
        ∑ d,place m.epochNumber (m.body.tips d) < 2^32 := by
  obtain ⟨q,hq⟩ := (accepts_validateMicroBlock.mp haccepts).2.2 hmade
  obtain rfl : q = p := some.inj (hq.previous.symm.trans hprevious)
  have hsum := addedBlocks_add m.epochNumber m.body.tips q.body.tips
  rw [hq.number] at hsum
  constructor
  · rintro ⟨hnamed,bs,hbs,hnumber⟩
    have hle : ∀ d ∈ univ,place m.epochNumber (m.body.tips d) ≤
        place m.epochNumber (q.body.tips d) + (bs d).length :=
      fun d _ => (hbs d).place_le hs (hnamed d) (hold d)
    have htotal := sum_le_sum hle
    rw [sum_add_distrib,← hnumber] at htotal
    have heq : ∑ d,place m.epochNumber (m.body.tips d) =
        ∑ d,(place m.epochNumber (q.body.tips d) + (bs d).length) := by
      rw [sum_add_distrib,← hnumber]
      bv_omega
    refine ⟨fun d => (hbs d).movesWithin hs (hnamed d) (hold d) ?_,by omega⟩
    exact (sum_eq_sum_iff_of_le hle).mp heq d (mem_univ d)
  · rintro ⟨hmoves,hfits⟩
    choose bs hbs hplace using fun d => (hmoves d).advances hs (hold d)
    refine ⟨fun d => (hmoves d).sound (hold d),bs,hbs,?_⟩
    simp only [hplace,sum_add_distrib] at hsum hfits
    bv_omega

section Sample

instance (s : BlockStore H σ) : Decidable (EpochsOrdered s) :=
  decidable_of_iff _ Table.forall_entries_iff

instance (s : BlockStore H σ) (d : Fin numDelegates) (t : Tip H) : Decidable (Names s d t) :=
  Option.decidableExistsMem ..

instance (s : BlockStore H σ) (d : Fin numDelegates) (t : Tip H) : Decidable (Sound s d t) :=
  inferInstanceAs (Decidable (_ → _))

instance (s : BlockStore H σ) (d : Fin numDelegates) (e : BitVec 32) (hash : H) :
    Decidable (StartsBehind s d e hash) :=
  decidable_of_iff _ Table.forall_entries_iff

instance (s : BlockStore H σ) (d : Fin numDelegates) (e : BitVec 32) (old new : Tip H) :
    Decidable (MovesWithin s d e old new) :=
  inferInstanceAs (Decidable (_ ∨ _ ∧ _ ∧ _ ∧ _ ∧ _))

def genesisMicroBlock : MicroBlock ℕ Unit := sampleBlock 0 2 2 0 ⟨1,0,fun _ => 0⟩

def genesisStore : BlockStore ℕ Unit :=
  { BlockStore.empty with
    microBlocks := AList.singleton (Digests.sample.microBlockHash genesisMicroBlock) genesisMicroBlock
    microBlockTip := some (tipOf genesisMicroBlock (Digests.sample.microBlockHash genesisMicroBlock))
    epochs := AList.singleton (Digests.sample.epochHash (sampleEpoch 2 0)) (sampleEpoch 2 0)
    epochTip := some (tipOf (sampleEpoch 2 0) (Digests.sample.epochHash (sampleEpoch 2 0))) }

/-- The first micro block after the genesis, with the tips of the first two delegates. -/
def firstMicroBlock (number : BitVec 32) (tip0 tip1 : Tip ℕ) : MicroBlock ℕ Unit :=
  sampleBlock 0 3 3 (Digests.sample.microBlockHash genesisMicroBlock)
    ⟨0,number,fun d => if d = 0 then tip0 else if d = 1 then tip1 else 0⟩

def sampleTip (d : BitVec 8) (sequence : BitVec 32) (previous : ℕ) : Tip ℕ :=
  ⟨3,sequence,Digests.sample.requestHash (sampleBlock d 3 sequence previous [] : RequestBlock ℕ Unit)⟩

/-- The tips of the request blocks that have come in. -/
def honestMicroBlock : MicroBlock ℕ Unit :=
  firstMicroBlock 3 (sampleTip 0 1 (sampleTip 0 0 0).digest) (sampleTip 1 0 0)

theorem tipsSound_sample :
    ∃ r,Machine.exec (BlockStore.receive Digests.sample 0) genesisStore sampleArrivals = some r ∧
      TipsSound r.1 genesisMicroBlock honestMicroBlock := by
  have hrun : ((Machine.exec (BlockStore.receive Digests.sample 0) genesisStore
      sampleArrivals).map fun r => decide ((0 ∉ r.1.requestBlocks ∧ EpochsOrdered r.1) ∧
        r.1.microBlocks.lookup honestMicroBlock.previous = some genesisMicroBlock ∧
        (r.1.validateMicroBlock honestMicroBlock none).Accepts () ∧
        (∀ d,MovesWithin r.1 d 3 0 (honestMicroBlock.body.tips d)) ∧
        ∑ d,place 3 (honestMicroBlock.body.tips d) < 2^32)) = some true := by decide +kernel
  have hfits : Machine.checks (BlockStore.receive Digests.sample 0)
      (fun s a => decide (Fits Digests.sample s a)) genesisStore sampleArrivals = true := by
    decide +kernel
  obtain ⟨r,hr,htest⟩ := map_eq_some_iff.mp hrun
  obtain ⟨⟨hzero,hearlier⟩,hprevious,haccepts,hmoves,hplaces⟩ := of_decide_eq_true htest
  have hintact : ChainsIntact r.1 :=
    Machine.exec_preserves (fun _ _ _ _ _ h hfits hstep => receive_intact h hfits hstep)
      (chainsIntact_of_empty rfl)
      (Machine.along_of_decide hfits) hr
  have hordered : ChainsOrdered r.1 := ⟨hintact,hzero,hearlier⟩
  have hmade : Made none MVP.done.rank := by decide
  exact ⟨r,hr,(tipsSound_iff hordered hprevious (fun d hne => absurd rfl hne) (by decide) hmade
    haccepts).mpr ⟨hmoves,hplaces⟩⟩

/-- A tip may name the block of another delegate under a number of its own. -/
def forgedMicroBlock : MicroBlock ℕ Unit :=
  firstMicroBlock 3 ⟨3,2,(sampleTip 1 0 0).digest⟩ 0

theorem forged_tips_accepted :
    ∃ r,Machine.exec (BlockStore.receive Digests.sample 0) genesisStore sampleArrivals = some r ∧
      (r.1.validateMicroBlock forgedMicroBlock none).Accepts () ∧
      ¬TipsSound r.1 genesisMicroBlock forgedMicroBlock := by
  have hrun : ((Machine.exec (BlockStore.receive Digests.sample 0) genesisStore
      sampleArrivals).map fun r => decide (
        (r.1.validateMicroBlock forgedMicroBlock none).Accepts () ∧
        ¬Sound r.1 0 (forgedMicroBlock.body.tips 0))) = some true := by decide +kernel
  obtain ⟨r,hr,htest⟩ := map_eq_some_iff.mp hrun
  obtain ⟨haccepts,hforged⟩ := of_decide_eq_true htest
  exact ⟨r,hr,haccepts,fun h => hforged (h.named 0)⟩

end Sample

end LogosCore.Archive
