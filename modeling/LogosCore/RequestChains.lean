import LogosCore.Archive
import LogosCore.Machine

/-! # The chains of request blocks

A request block from the network is validated and put behind the block it names. Storing it writes
the tip of its delegate and epoch and the link of the block before it; the chains stay whole as
long as each block fits to the end of its own chain. -/
namespace LogosCore.Archive

open AList Option Check
open Ledger (Validation)

inductive RVP
  | drift | previous | requestsFirst | requestsDone

def RVP.rank : RVP → ℕ
  | .drift => 1
  | .previous => 2
  | .requestsFirst => 3
  | .requestsDone => 4

/-- A request block that comes in, with its status and what the ledger says of its requests. -/
structure Arrival (H σ : Type) where
  block : RequestBlock H σ
  status : Option ValidationStatus
  now : BitVec 64
  accepts : ℕ → Bool

variable {H σ : Type} [DecidableEq H] [Zero H] (D : Digests H) (clockDrift : BitVec 64)

def slot (b : RequestBlock H σ) : BitVec 8 × BitVec 32 := (b.primaryDelegate,b.epochNumber)

namespace BlockStore

variable (s : BlockStore H σ)

/-- The checks against the block before; the blocks of epoch zero are not checked. -/
def checkPredecessor (m previous : RequestBlock H σ) : Validation Unit :=
  if 0 < previous.epochNumber then do
    require ((previous.epochNumber = m.epochNumber ∧ m.sequence = previous.sequence + 1) ∨
      (previous.epochNumber < m.epochNumber ∧ m.sequence = 0)) .wrongSequenceNumber
    if previous.epochNumber = m.epochNumber then do
      require (previous.primaryDelegate = m.primaryDelegate) .notDelegate
      let tip ← found (s.requestTips.lookup (slot previous)) .invalidTip
      require (tip = tipOf previous m.previous) .invalidTip
    else pure ()
  else pure ()

def validatePrevious (m : RequestBlock H σ) : Validation Unit :=
  if m.previous ≠ 0 then do
    let previous ← found (s.requestBlocks.lookup m.previous) .gapPrevious
    s.checkPredecessor m previous
  else pure ()

omit s [DecidableEq H] [Zero H] in
/-- Every request that is looked at has to be accepted. -/
def validateRequests (a : Arrival H σ) : Validation Unit :=
  (List.range a.block.body.length).forM fun i =>
    require (Examined a.status RVP.requestsFirst.rank i → a.accepts i) .invalidRequest

def validatePreprepare (a : Arrival H σ) : Validation Unit := do
  stage a.status RVP.drift.rank (validateTimestamp clockDrift a.now a.block.timestamp)
  stage a.status RVP.previous.rank (s.validatePrevious a.block)
  stage a.status RVP.requestsDone.rank (validateRequests a)

/-- The first request block of an epoch is put behind the tip that the epoch block before left. -/
def linkFirst (m : RequestBlock H σ) : Option (BlockStore H σ × RequestBlock H σ) :=
  if m.sequence = 0 ∧ genesisEpoch + 1 < m.epochNumber then do
    let stored ← s.epochTip
    if stored.epoch + 1 = m.epochNumber then do
      let curTip ← s.requestTips.lookup (slot m)
      let blocks ← updateNext s.requestBlocks curTip.digest (D.requestHash m)
      some ({ s with requestBlocks := blocks },{ m with previous := curTip.digest })
    else some (s,m)
  else some (s,m)

def putRequestBlock (m : RequestBlock H σ) (delegateId : BitVec 8) : BlockStore H σ :=
  { s with
    requestBlocks := s.requestBlocks.insert (D.requestHash m) m
    requestTips := s.requestTips.insert (delegateId,m.epochNumber) (tipOf m (D.requestHash m)) }

/-- `StoreRequestBlock`; a link that cannot be written halts the node. -/
def storeRequestBlock (m : RequestBlock H σ) (delegateId : BitVec 8) : Option (BlockStore H σ) := do
  let r ← s.linkFirst D m
  let s' := r.1.putRequestBlock D r.2 delegateId
  if r.2.previous ≠ 0 then do
    let blocks ← updateNext s'.requestBlocks r.2.previous (D.requestHash r.2)
    some { s' with requestBlocks := blocks }
  else some s'

/-- `ApplyUpdates` of the request blocks, without the requests. -/
def applyRequestBlock (m : RequestBlock H σ) : Option (BlockStore H σ) :=
  if D.requestHash m ∈ s.requestBlocks then some s else s.storeRequestBlock D m m.primaryDelegate

def receive (a : Arrival H σ) : Option (BlockStore H σ × List Empty) :=
  if (s.validatePreprepare clockDrift a).Accepts () then (s.applyRequestBlock D a.block).map (·,[])
  else some (s,[])

/-- The block behind which a block is stored, and whether that block then points to it. -/
def predecessor (m : RequestBlock H σ) : Option (H × Bool) :=
  if m.sequence = 0 ∧ genesisEpoch + 1 < m.epochNumber then
    s.epochTip.bind fun stored =>
      if stored.epoch + 1 = m.epochNumber then
        (s.requestTips.lookup (slot m)).map fun tip => (tip.digest,true)
      else some (m.previous,decide (m.previous ≠ 0))
  else some (m.previous,decide (m.previous ≠ 0))

/-- What storing a new block behind `p` does to the chains. -/
structure StoredBehind (s s' : BlockStore H σ) (m : RequestBlock H σ) (hash p : H)
    (linked : Bool) : Prop where
  present : linked = true → p ∈ s.requestBlocks
  lookup : ∀ k,s'.requestBlocks.lookup k = if k = hash then some { m with previous := p }
    else if k = p ∧ linked = true then (s.requestBlocks.lookup k).map ({ · with next := hash })
    else s.requestBlocks.lookup k
  tips : s'.requestTips = s.requestTips.insert (slot m) (tipOf m hash)
  epochs : s'.epochs = s.epochs
  epochTip : s'.epochTip = s.epochTip

variable {s} {s' : BlockStore H σ} {m : RequestBlock H σ}

/-- What linking the first block of an epoch does: at most the link of its predecessor changes. -/
structure LinkedFirst (s : BlockStore H σ) (m : RequestBlock H σ)
    (r : BlockStore H σ × RequestBlock H σ) (p : H) (relinked : Bool) : Prop where
  predecessor : s.predecessor m = some (p,relinked || decide (p ≠ 0))
  block : r.2 = { m with previous := p }
  hash : D.requestHash r.2 = D.requestHash m
  tips : r.1.requestTips = s.requestTips
  epochs : r.1.epochs = s.epochs
  epochTip : r.1.epochTip = s.epochTip
  present : relinked = true → p ∈ s.requestBlocks
  lookup : ∀ k,r.1.requestBlocks.lookup k = if k = p ∧ relinked = true
    then (s.requestBlocks.lookup k).map ({ · with next := D.requestHash m })
    else s.requestBlocks.lookup k

theorem linkedFirst_self (h : s.predecessor m = some (m.previous,decide (m.previous ≠ 0))) :
    LinkedFirst D s m (s,m) m.previous false :=
  ⟨by simpa using h,rfl,rfl,rfl,rfl,rfl,by simp,by simp⟩

theorem linkFirst_spec {r : BlockStore H σ × RequestBlock H σ} (h : s.linkFirst D m = some r) :
    ∃ p relinked,LinkedFirst D s m r p relinked := by
  unfold linkFirst at h
  split at h
  · next hfirst =>
    obtain ⟨stored,hstored,h⟩ := bind_eq_some_iff.mp h
    split at h
    · next hepoch =>
      obtain ⟨tip,htip,h⟩ := bind_eq_some_iff.mp h
      obtain ⟨blocks,hblocks,h⟩ := bind_eq_some_iff.mp h
      obtain rfl := some.inj h
      refine ⟨tip.digest,true,?_,rfl,D.requestHash_first hfirst.1 _ _,rfl,rfl,rfl,
        fun _ => updateNext_eq_some_iff.mp ⟨_,hblocks⟩,fun k => ?_⟩
      · rw [BlockStore.predecessor,if_pos hfirst,hstored,bind_some,if_pos hepoch,htip]
        rfl
      · simpa using lookup_updateNext hblocks k
    · next hepoch =>
      obtain rfl := some.inj h
      refine ⟨_,_,linkedFirst_self D ?_⟩
      rw [BlockStore.predecessor,if_pos hfirst,hstored,bind_some,if_neg hepoch]
  · next hfirst =>
    obtain rfl := some.inj h
    exact ⟨_,_,linkedFirst_self D (by rw [BlockStore.predecessor,if_neg hfirst])⟩

section Linked
variable {r : BlockStore H σ × RequestBlock H σ} {p : H} {relinked : Bool}

theorem LinkedFirst.lookup_put (h : LinkedFirst D s m r p relinked) (d : BitVec 8) (k : H) :
    (r.1.putRequestBlock D r.2 d).requestBlocks.lookup k =
      if k = D.requestHash m then some { m with previous := p } else r.1.requestBlocks.lookup k := by
  simp only [putRequestBlock,h.hash,Table.lookup_insert_ite]
  rw [h.block]

theorem LinkedFirst.tips_put (h : LinkedFirst D s m r p relinked) :
    (r.1.putRequestBlock D r.2 m.primaryDelegate).requestTips =
      s.requestTips.insert (slot m) (tipOf m (D.requestHash m)) := by
  simp only [putRequestBlock,h.tips,h.hash]
  rw [h.block]
  rfl

end Linked

/-- A new block that is not put behind itself is stored behind its predecessor. -/
theorem storeRequestBlock_spec (hself : s.predecessor m ≠ some (D.requestHash m,true))
    (h : s.storeRequestBlock D m m.primaryDelegate = some s') :
    ∃ p linked,s.predecessor m = some (p,linked) ∧
      StoredBehind s s' m (D.requestHash m) p linked := by
  obtain ⟨r,hr,h⟩ := bind_eq_some_iff.mp h
  obtain ⟨p,relinked,hlink⟩ := linkFirst_spec D hr
  refine ⟨p,_,hlink.predecessor,?_⟩
  have hprevious : r.2.previous = p := by rw [hlink.block]
  simp only [hprevious,hlink.hash] at h
  by_cases hp : p = 0
  · simp only [hp,ne_eq,not_true,↓reduceIte,some.injEq] at h
    subst h
    refine ⟨by simpa [hp] using hlink.present,fun k => ?_,hlink.tips_put,hlink.epochs,
      hlink.epochTip⟩
    rw [hlink.lookup_put,hlink.lookup]
    simp [hp]
  · simp only [hp,ne_eq,not_false_eq_true,↓reduceIte] at h
    obtain ⟨blocks,hblocks,h⟩ := bind_eq_some_iff.mp h
    obtain rfl := some.inj h
    have hne : p ≠ D.requestHash m := by
      rintro rfl
      exact hself (by simpa [hp] using hlink.predecessor)
    have hpresent : p ∈ s.requestBlocks := by
      have hput := updateNext_eq_some_iff.mp ⟨_,hblocks⟩
      rw [← lookup_isSome,hlink.lookup_put,if_neg hne,hlink.lookup] at hput
      rw [← lookup_isSome]
      split at hput
      · rwa [isSome_map] at hput
      · exact hput
    refine ⟨fun _ => hpresent,fun k => ?_,hlink.tips_put,hlink.epochs,hlink.epochTip⟩
    rw [lookup_updateNext hblocks,hlink.lookup_put,hlink.lookup]
    by_cases hk : k = p
    · cases hrelinked : relinked with
      | true => simp [hk,hne,Function.comp_def]
      | false => simp [hk,hne,hp]
    · simp [hk]

variable {linked : Bool}

/-- Whatever a block is stored behind gets a link to it, unless there is nothing before it. -/
theorem linked_of_predecessor {p : H} (h : s.predecessor m = some (p,linked)) (hp : p ≠ 0) :
    linked = true := by
  have hplain : some (m.previous,decide (m.previous ≠ 0)) = some (p,linked) → linked = true := by
    intro h
    obtain ⟨rfl,rfl⟩ := Prod.mk.inj (some.inj h)
    exact decide_eq_true hp
  unfold predecessor at h
  split at h
  · obtain ⟨stored,-,h⟩ := bind_eq_some_iff.mp h
    split at h
    · obtain ⟨tip,-,h⟩ := map_eq_some_iff.mp h
      exact (Prod.mk.inj h).2.symm
    · exact hplain h
  · exact hplain h

theorem linkFirst_of_present {p : H} (h : s.predecessor m = some (p,linked))
    (hp : linked = true → p ∈ s.requestBlocks) : ∃ r,s.linkFirst D m = some r := by
  unfold predecessor at h
  unfold linkFirst
  split at h
  · next hfirst =>
    rw [if_pos hfirst]
    obtain ⟨stored,hstored,h⟩ := bind_eq_some_iff.mp h
    rw [hstored,bind_eq_bind,bind_some]
    split at h
    · next hepoch =>
      rw [if_pos hepoch]
      obtain ⟨tip,htip,h⟩ := map_eq_some_iff.mp h
      obtain ⟨rfl,rfl⟩ := Prod.mk.inj h
      obtain ⟨blocks,hblocks⟩ := updateNext_eq_some_iff.mpr (hp rfl)
      rw [htip,bind_some,hblocks]
      exact ⟨_,rfl⟩
    · next hepoch =>
      rw [if_neg hepoch]
      exact ⟨_,rfl⟩
  · next hfirst =>
    rw [if_neg hfirst]
    exact ⟨_,rfl⟩

/-- A block whose predecessor is there can be stored. -/
theorem storeRequestBlock_of_present {p : H} (h : s.predecessor m = some (p,linked))
    (hp : linked = true → p ∈ s.requestBlocks) :
    ∃ s',s.storeRequestBlock D m m.primaryDelegate = some s' := by
  obtain ⟨r,hr⟩ := linkFirst_of_present D h hp
  obtain ⟨p',relinked,hlink⟩ := linkFirst_spec D hr
  obtain ⟨rfl,-⟩ := Prod.mk.inj (some.inj (h.symm.trans hlink.predecessor))
  have hprevious : r.2.previous = p := by rw [hlink.block]
  rw [storeRequestBlock,hr,bind_eq_bind,bind_some]
  by_cases hzero : p = 0
  · rw [if_neg (by rw [hprevious]; exact not_not.mpr hzero)]
    exact ⟨_,rfl⟩
  · rw [if_pos (by rw [hprevious]; exact hzero),hprevious]
    have hput : p ∈ (r.1.putRequestBlock D r.2 m.primaryDelegate).requestBlocks := by
      have hmem := hp (linked_of_predecessor h hzero)
      rw [← lookup_isSome] at hmem ⊢
      rw [hlink.lookup_put,hlink.lookup]
      split
      · rfl
      · split
        · rwa [isSome_map]
        · exact hmem
    obtain ⟨blocks,hblocks⟩ := updateNext_eq_some_iff.mpr hput
    rw [hblocks]
    exact ⟨_,rfl⟩

end BlockStore

open BlockStore

/-- The request chains are whole: those of a delegate and epoch are numbered from zero without a
gap, linked in both directions up to the tip, and no link leads to another delegate. -/
structure ChainsIntact (s : BlockStore H σ) : Prop where
  gapless : ∀ h b,s.requestBlocks.lookup h = some b → ∀ k,k < b.sequence →
    ∃ h' b',s.requestBlocks.lookup h' = some b' ∧ slot b' = slot b ∧ b'.sequence = k
  unique : ∀ h h' b b',s.requestBlocks.lookup h = some b → s.requestBlocks.lookup h' = some b' →
    slot b = slot b' → b.sequence = b'.sequence → h = h'
  linked : ∀ h b,s.requestBlocks.lookup h = some b → b.sequence ≠ 0 →
    ∃ p,s.requestBlocks.lookup b.previous = some p ∧ slot p = slot b ∧
      p.sequence + 1 = b.sequence ∧ p.next = h
  tip : ∀ h b,s.requestBlocks.lookup h = some b →
    ∃ hash last,s.requestTips.lookup (slot b) = some (tipOf last hash) ∧
      s.requestBlocks.lookup hash = some last ∧ slot last = slot b ∧ b.sequence ≤ last.sequence
  nextWithin : ∀ h b b',s.requestBlocks.lookup h = some b → b.next ≠ 0 →
    s.requestBlocks.lookup b.next = some b' → b'.primaryDelegate = b.primaryDelegate
  previousWithin : ∀ h b,s.requestBlocks.lookup h = some b → b.previous ≠ 0 →
    ∃ b',s.requestBlocks.lookup b.previous = some b' ∧ b'.primaryDelegate = b.primaryDelegate

/-- The last stored block of its delegate and epoch. -/
def IsLast (s : BlockStore H σ) (b : RequestBlock H σ) : Prop :=
  ∀ h b',s.requestBlocks.lookup h = some b' → slot b' = slot b → b'.sequence ≤ b.sequence

/-- A block with the number after that of the tip of its chain, which it names. -/
def Succeeds (s : BlockStore H σ) (m : RequestBlock H σ) : Prop :=
  ∃ p ∈ s.requestBlocks.lookup m.previous,slot p = slot m ∧ p.sequence + 1 = m.sequence ∧
    s.requestTips.lookup (slot m) = some (tipOf p m.previous)

/-- A new block goes to the end of its own chain, and no link joins it to another delegate. -/
structure Extends (s : BlockStore H σ) (m : RequestBlock H σ) (hash p : H) (linked : Bool) :
    Prop where
  behind : linked = true → ∃ q ∈ s.requestBlocks.lookup p,
    q.primaryDelegate = m.primaryDelegate ∧ IsLast s q
  named : p ≠ 0 → linked = true
  successor : m.sequence ≠ 0 → linked = true ∧ ∃ q ∈ s.requestBlocks.lookup p,
    slot q = slot m ∧ q.sequence + 1 = m.sequence
  above : ∀ h b,s.requestBlocks.lookup h = some b → slot b = slot m → b.sequence < m.sequence
  next : m.next ≠ 0 → ∀ b ∈ s.requestBlocks.lookup m.next,b.primaryDelegate = m.primaryDelegate
  awaited : hash ≠ 0 → ∀ h b,s.requestBlocks.lookup h = some b → b.next = hash →
    b.primaryDelegate = m.primaryDelegate

variable {k : H}

section Store
variable {s s' : BlockStore H σ} {m : RequestBlock H σ} {hash p : H} {linked : Bool}
  {b : RequestBlock H σ}

variable (hs : StoredBehind s s' m hash p linked)
include hs

/-- A stored block is the new one, or one that was there with at most another link to the next. -/
theorem BlockStore.StoredBehind.cases (hb : s'.requestBlocks.lookup k = some b) :
    k = hash ∧ b = { m with previous := p } ∨ k ≠ hash ∧ ∃ b0,s.requestBlocks.lookup k = some b0 ∧
        b.toConsensusBlock = b0.toConsensusBlock ∧
        (k = p ∧ linked = true ∧ b.next = hash ∨ ¬(k = p ∧ linked = true) ∧ b.next = b0.next) := by
  rw [hs.lookup] at hb
  by_cases hk : k = hash
  · rw [if_pos hk] at hb
    exact .inl ⟨hk,(some.inj hb).symm⟩
  · rw [if_neg hk] at hb
    refine .inr ⟨hk,?_⟩
    split at hb
    · next hp =>
      obtain ⟨b0,hb0,rfl⟩ := map_eq_some_iff.mp hb
      exact ⟨b0,hb0,rfl,.inl ⟨hp.1,hp.2,rfl⟩⟩
    · next hp => exact ⟨b,hb,rfl,.inr ⟨hp,rfl⟩⟩

theorem BlockStore.StoredBehind.lookup_new :
    s'.requestBlocks.lookup hash = some { m with previous := p } := by
  rw [hs.lookup,if_pos rfl]

theorem BlockStore.StoredBehind.kept
    (hnew : hash ∉ s.requestBlocks) (hb : s.requestBlocks.lookup k = some b) :
    k ≠ hash ∧ ∃ b',s'.requestBlocks.lookup k = some b' ∧ b'.toConsensusBlock = b.toConsensusBlock ∧
      b'.next = if k = p ∧ linked = true then hash else b.next := by
  have hk : k ≠ hash := by
    rintro rfl
    rw [lookup_eq_none.mpr hnew] at hb
    cases hb
  refine ⟨hk,?_⟩
  rw [hs.lookup,if_neg hk]
  by_cases hp : k = p ∧ linked = true
  · rw [if_pos hp,hb]
    exact ⟨_,rfl,rfl,by rw [if_pos hp]⟩
  · rw [if_neg hp]
    exact ⟨b,hb,rfl,by rw [if_neg hp]⟩

omit hs

omit [DecidableEq H] [Zero H] in
theorem slot_congr {b' : RequestBlock H σ} (h : b.toConsensusBlock = b'.toConsensusBlock) :
    slot b = slot b' := by
  simp only [slot,h]

variable (hs : StoredBehind s s' m hash p linked) (hm : Extends s m hash p linked)
  (hnew : hash ∉ s.requestBlocks) (h : ChainsIntact s)
include hs hm hnew h

theorem ChainsIntact.gapless_store : ∀ k b,s'.requestBlocks.lookup k = some b →
    ∀ n,n < b.sequence →
      ∃ k' b',s'.requestBlocks.lookup k' = some b' ∧ slot b' = slot b ∧ b'.sequence = n := by
  have hkept : ∀ sl n,(∃ k' b',s.requestBlocks.lookup k' = some b' ∧ slot b' = sl ∧
      b'.sequence = n) →
      ∃ k' b',s'.requestBlocks.lookup k' = some b' ∧ slot b' = sl ∧ b'.sequence = n := by
    rintro sl n ⟨k',b',hb',hslot,hseq⟩
    obtain ⟨-,b'',hb'',hheader,-⟩ := hs.kept hnew hb'
    exact ⟨k',b'',hb'',(slot_congr hheader).trans hslot,by rw [hheader]; exact hseq⟩
  intro k b hb n hn
  rcases hs.cases hb with ⟨-,rfl⟩ | ⟨-,b0,hb0,hheader,-⟩
  · have hne : m.sequence ≠ 0 := by
      change n < m.sequence at hn
      bv_omega
    obtain ⟨-,q,hq,hslot,hseq⟩ := hm.successor hne
    apply hkept
    by_cases heq : n = q.sequence
    · exact ⟨p,q,hq,hslot,heq.symm⟩
    · change n < m.sequence at hn
      obtain ⟨k',b',hb',hslot',hseq'⟩ := h.gapless p q hq n (by bv_omega)
      exact ⟨k',b',hb',hslot'.trans hslot,hseq'⟩
  · rw [hheader] at hn
    rw [slot_congr hheader]
    exact hkept _ _ (h.gapless k b0 hb0 n hn)

theorem ChainsIntact.unique_store : ∀ k k' b b',s'.requestBlocks.lookup k = some b →
    s'.requestBlocks.lookup k' = some b' → slot b = slot b' → b.sequence = b'.sequence → k = k' := by
  intro k k' b b' hb hb' hslot hseq
  rcases hs.cases hb with ⟨rfl,rfl⟩ | ⟨-,b0,hb0,hheader,-⟩
  · rcases hs.cases hb' with ⟨rfl,-⟩ | ⟨-,b1,hb1,hheader1,-⟩
    · rfl
    · rw [slot_congr hheader1] at hslot
      rw [hheader1] at hseq
      have hlt := hm.above k' b1 hb1 hslot.symm
      change m.sequence = _ at hseq
      bv_omega
  · rw [slot_congr hheader] at hslot
    rw [hheader] at hseq
    rcases hs.cases hb' with ⟨rfl,rfl⟩ | ⟨-,b1,hb1,hheader1,-⟩
    · have hlt := hm.above k b0 hb0 hslot
      change _ = m.sequence at hseq
      bv_omega
    · rw [slot_congr hheader1] at hslot
      rw [hheader1] at hseq
      exact h.unique k k' b0 b1 hb0 hb1 hslot hseq

theorem ChainsIntact.linked_store : ∀ k b,s'.requestBlocks.lookup k = some b → b.sequence ≠ 0 →
    ∃ q,s'.requestBlocks.lookup b.previous = some q ∧ slot q = slot b ∧
      q.sequence + 1 = b.sequence ∧ q.next = k := by
  intro k b hb hne
  rcases hs.cases hb with ⟨rfl,rfl⟩ | ⟨-,b0,hb0,hheader,-⟩
  · obtain ⟨hlinked,q,hq,hslot,hseq⟩ := hm.successor hne
    obtain ⟨-,q',hq',hheader,hnext⟩ := hs.kept hnew hq
    rw [if_pos ⟨rfl,hlinked⟩] at hnext
    exact ⟨q',hq',(slot_congr hheader).trans hslot,by rw [hheader]; exact hseq,hnext⟩
  · rw [hheader] at hne
    obtain ⟨q,hq,hslot,hseq,hnext⟩ := h.linked k b0 hb0 hne
    obtain ⟨-,q',hq',hheader',hnext'⟩ := hs.kept hnew hq
    -- the block behind which the new one is stored is the last of its chain
    have hother : ¬(b0.previous = p ∧ linked = true) := by
      rintro ⟨rfl,hlinked⟩
      obtain ⟨q1,hq1,-,hlast⟩ := hm.behind hlinked
      obtain rfl : q1 = q := some.inj (hq1.symm.trans hq)
      have hle := hlast k b0 hb0 hslot.symm
      bv_omega
    rw [if_neg hother] at hnext'
    refine ⟨q',?_,?_,?_,hnext'.trans hnext⟩
    · rw [hheader]
      exact hq'
    · rw [slot_congr hheader,slot_congr hheader']
      exact hslot
    · rw [hheader,hheader']
      exact hseq

theorem ChainsIntact.tip_store : ∀ k b,s'.requestBlocks.lookup k = some b →
    ∃ k' last,s'.requestTips.lookup (slot b) = some (tipOf last k') ∧
      s'.requestBlocks.lookup k' = some last ∧ slot last = slot b ∧ b.sequence ≤ last.sequence := by
  intro k b hb
  rw [hs.tips,Table.lookup_insert_ite]
  by_cases hslot : slot b = slot m
  · rw [if_pos hslot]
    refine ⟨hash,{ m with previous := p },rfl,hs.lookup_new,hslot.symm,?_⟩
    change b.sequence ≤ m.sequence
    rcases hs.cases hb with ⟨-,rfl⟩ | ⟨-,b0,hb0,hheader,-⟩
    · exact BitVec.le_refl m.sequence
    · rw [slot_congr hheader] at hslot
      rw [hheader]
      have hlt := hm.above k b0 hb0 hslot
      bv_omega
  · rw [if_neg hslot]
    rcases hs.cases hb with ⟨-,rfl⟩ | ⟨-,b0,hb0,hheader,-⟩
    · exact absurd rfl hslot
    · obtain ⟨k',last,htip,hlast,hslot',hle⟩ := h.tip k b0 hb0
      obtain ⟨-,last',hlast',hheader',-⟩ := hs.kept hnew hlast
      refine ⟨k',last',?_,hlast',?_,?_⟩
      · rw [slot_congr hheader,htip]
        simp only [tipOf,hheader']
      · rw [slot_congr hheader,slot_congr hheader',hslot']
      · rw [hheader,hheader']
        exact hle

theorem ChainsIntact.nextWithin_store : ∀ k b b',s'.requestBlocks.lookup k = some b → b.next ≠ 0 →
    s'.requestBlocks.lookup b.next = some b' → b'.primaryDelegate = b.primaryDelegate := by
  intro k b b' hb hne hb'
  rcases hs.cases hb with ⟨rfl,rfl⟩ | ⟨-,b0,hb0,hheader,hnext⟩
  · rcases hs.cases hb' with ⟨-,rfl⟩ | ⟨-,b1,hb1,hheader1,-⟩
    · rfl
    · rw [hheader1]
      exact hm.next hne b1 hb1
  · rw [hheader]
    rcases hnext with ⟨rfl,hlinked,hnext⟩ | ⟨-,hnext⟩
    · rw [hnext,hs.lookup_new] at hb'
      obtain rfl := some.inj hb'
      obtain ⟨q,hq,hdelegate,-⟩ := hm.behind hlinked
      obtain rfl : q = b0 := some.inj (hq.symm.trans hb0)
      exact hdelegate.symm
    · rw [hnext] at hb' hne
      rcases hs.cases hb' with ⟨hk,rfl⟩ | ⟨-,b1,hb1,hheader1,-⟩
      · exact (hm.awaited (hk ▸ hne) k b0 hb0 hk).symm
      · rw [hheader1]
        exact h.nextWithin k b0 b1 hb0 hne hb1

theorem ChainsIntact.previousWithin_store : ∀ k b,s'.requestBlocks.lookup k = some b →
    b.previous ≠ 0 → ∃ b',s'.requestBlocks.lookup b.previous = some b' ∧
      b'.primaryDelegate = b.primaryDelegate := by
  intro k b hb hne
  have hkept : ∀ k0 q,s.requestBlocks.lookup k0 = some q → ∃ b',s'.requestBlocks.lookup k0 = some b' ∧
      b'.primaryDelegate = q.primaryDelegate := by
    intro k0 q hq
    obtain ⟨-,b',hb',hheader,-⟩ := hs.kept hnew hq
    exact ⟨b',hb',by rw [hheader]⟩
  rcases hs.cases hb with ⟨rfl,rfl⟩ | ⟨-,b0,hb0,hheader,-⟩
  · obtain ⟨q,hq,hdelegate,-⟩ := hm.behind (hm.named hne)
    obtain ⟨b',hb',hdelegate'⟩ := hkept p q hq
    exact ⟨b',hb',hdelegate'.trans hdelegate⟩
  · rw [hheader] at hne ⊢
    obtain ⟨q,hq,hdelegate⟩ := h.previousWithin k b0 hb0 hne
    obtain ⟨b',hb',hdelegate'⟩ := hkept _ q hq
    exact ⟨b',hb',hdelegate'.trans hdelegate⟩

theorem ChainsIntact.store : ChainsIntact s' :=
  ⟨h.gapless_store hs hm hnew,h.unique_store hs hm hnew,h.linked_store hs hm hnew,
    h.tip_store hs hm hnew,h.nextWithin_store hs hm hnew,h.previousWithin_store hs hm hnew⟩

end Store

section Run

def Unused (s : BlockStore H σ) (sl : BitVec 8 × BitVec 32) : Prop :=
  ∀ h b,s.requestBlocks.lookup h = some b → slot b ≠ sl

/-- Stored blocks that already point to a hash are of the given delegate. -/
def AwaitedBy (s : BlockStore H σ) (hash : H) (d : BitVec 8) : Prop :=
  ∀ h b,s.requestBlocks.lookup h = some b → b.next = hash → b.primaryDelegate = d

/-- A new block that is not the first names its predecessor, in an epoch other than zero, which
still is the tip if it was looked at before. The first of an epoch is the only one and goes behind a
last block of its delegate. The links stay with the delegate. -/
def Fits (s : BlockStore H σ) (a : Arrival H σ) : Prop :=
  D.requestHash a.block ∉ s.requestBlocks → (a.block.sequence ≠ 0 → a.block.previous ≠ 0 ∧
      (∀ p ∈ s.requestBlocks.lookup a.block.previous,p.epochNumber ≠ 0) ∧
      (Made a.status RVP.previous.rank ∨ Succeeds s a.block)) ∧
    (a.block.sequence = 0 → Unused s (slot a.block) ∧ ∀ p ∈ s.predecessor a.block,p.2 = true →
      ∃ q ∈ s.requestBlocks.lookup p.1,q.primaryDelegate = a.block.primaryDelegate ∧ IsLast s q) ∧
    (a.block.next ≠ 0 → ∀ b ∈ s.requestBlocks.lookup a.block.next,
      b.primaryDelegate = a.block.primaryDelegate) ∧
    (D.requestHash a.block ≠ 0 → AwaitedBy s (D.requestHash a.block) a.block.primaryDelegate)

instance (s : BlockStore H σ) (b : RequestBlock H σ) : Decidable (IsLast s b) :=
  decidable_of_iff _ Table.forall_entries_iff

instance (s : BlockStore H σ) (sl : BitVec 8 × BitVec 32) : Decidable (Unused s sl) :=
  decidable_of_iff _ Table.forall_entries_iff

instance (s : BlockStore H σ) (hash : H) (d : BitVec 8) : Decidable (AwaitedBy s hash d) :=
  decidable_of_iff _ Table.forall_entries_iff

instance (s : BlockStore H σ) (m : RequestBlock H σ) : Decidable (Succeeds s m) :=
  Option.decidableExistsMem ..

instance (s : BlockStore H σ) (a : Arrival H σ) : Decidable (Fits D s a) :=
  inferInstanceAs (Decidable (_ → _ ∧ _ ∧ _ ∧ _))

variable {D clockDrift} {s s' : BlockStore H σ} {a : Arrival H σ}

theorem succeeds_of_accepts (h : (s.validatePreprepare clockDrift a).Accepts ())
    (hmade : Made a.status RVP.previous.rank) (hseq : a.block.sequence ≠ 0)
    (hprevious : a.block.previous ≠ 0)
    (hepoch : ∀ p ∈ s.requestBlocks.lookup a.block.previous,p.epochNumber ≠ 0) :
    Succeeds s a.block := by
  obtain ⟨_,-,h⟩ := accepts_bind.mp h
  obtain ⟨_,h,-⟩ := accepts_bind.mp h
  have h := accepts_stage.mp h hmade
  rw [validatePrevious,if_pos hprevious] at h
  obtain ⟨p,hp,h⟩ := accepts_found_bind.mp h
  have hpos : 0 < p.epochNumber := by
    have := hepoch p hp
    bv_omega
  rw [checkPredecessor,if_pos hpos] at h
  obtain ⟨hnumber,h⟩ := accepts_require_bind.mp h
  rcases hnumber with ⟨hsame,hnumber⟩ | ⟨-,hzero⟩
  · rw [if_pos hsame] at h
    obtain ⟨hdelegate,h⟩ := accepts_require_bind.mp h
    obtain ⟨tip,htip,h⟩ := accepts_found_bind.mp h
    have hslot : slot p = slot a.block := Prod.ext hdelegate hsame
    rw [hslot,accepts_require.mp h] at htip
    exact ⟨p,hp,hslot,hnumber.symm,htip⟩
  · exact absurd hzero hseq

/-- The tip of a whole chain is its last block. -/
theorem ChainsIntact.isLast_of_tip {q : RequestBlock H σ} (h : ChainsIntact s)
    (hq : s.requestBlocks.lookup k = some q)
    (htip : s.requestTips.lookup (slot q) = some (tipOf q k)) : IsLast s q := by
  intro k' b' hb' hslot
  obtain ⟨k1,last,htip1,hlast,-,hle⟩ := h.tip k' b' hb'
  rw [hslot,htip,some.injEq] at htip1
  obtain rfl : k = k1 := congrArg Tip.digest htip1
  rw [hq,some.injEq] at hlast
  rw [hlast]
  exact hle

theorem predecessor_of_not_first {m : RequestBlock H σ} (h : m.sequence ≠ 0) :
    s.predecessor m = some (m.previous,decide (m.previous ≠ 0)) := by
  rw [BlockStore.predecessor,if_neg fun hfirst => h hfirst.1]

theorem Fits.extension (hfits : Fits D s a) (hnew : D.requestHash a.block ∉ s.requestBlocks)
    (h : ChainsIntact s) (haccepts : (s.validatePreprepare clockDrift a).Accepts ()) {p : H}
    {linked : Bool} (hpred : s.predecessor a.block = some (p,linked)) :
    Extends s a.block (D.requestHash a.block) p linked := by
  obtain ⟨hlater,hfirst,hnext,hawaited⟩ := hfits hnew
  by_cases hseq : a.block.sequence = 0
  · obtain ⟨hunused,hbehind⟩ := hfirst hseq
    exact ⟨hbehind _ hpred,linked_of_predecessor hpred,fun hne => absurd hseq hne,
      fun k b hb hslot => absurd hslot (hunused k b hb),hnext,hawaited⟩
  · obtain ⟨hprevious,hepoch,hmade⟩ := hlater hseq
    have hsucceeds : Succeeds s a.block := by
      rcases hmade with hmade | hmade
      · exact succeeds_of_accepts haccepts hmade hseq hprevious hepoch
      · exact hmade
    obtain ⟨q,hq,hslot,hnumber,htip⟩ := hsucceeds
    have hlast := h.isLast_of_tip hq (hslot ▸ htip)
    rw [predecessor_of_not_first hseq] at hpred
    obtain ⟨rfl,rfl⟩ := Prod.mk.inj (some.inj hpred)
    have hlinked : decide (a.block.previous ≠ 0) = true := decide_eq_true hprevious
    refine ⟨fun _ => ⟨q,hq,congrArg Prod.fst hslot,hlast⟩,fun _ => hlinked,
      fun _ => ⟨hlinked,q,hq,hslot,hnumber⟩,fun k b hb hb' => ?_,hnext,hawaited⟩
    have hle := hlast k b hb (hb'.trans hslot.symm)
    bv_omega

theorem receive_intact {o : List Empty} (h : ChainsIntact s) (hfits : Fits D s a)
    (hstep : s.receive D clockDrift a = some (s',o)) : ChainsIntact s' := by
  unfold receive at hstep
  split at hstep
  · next haccepts =>
    obtain ⟨s1,hs1,heq⟩ := map_eq_some_iff.mp hstep
    obtain rfl := (Prod.mk.inj heq).1
    unfold applyRequestBlock at hs1
    split at hs1
    · rwa [← some.inj hs1]
    · next hnew =>
      have hself : s.predecessor a.block ≠ some (D.requestHash a.block,true) := by
        intro hpred
        obtain ⟨q,hq,-⟩ := (hfits.extension hnew h haccepts hpred).behind rfl
        rw [lookup_eq_none.mpr hnew] at hq
        cases hq
      obtain ⟨p,linked,hpred,hstored⟩ := storeRequestBlock_spec D hself hs1
      exact h.store hstored (hfits.extension hnew h haccepts hpred) hnew
  · rw [some.injEq,Prod.mk.injEq] at hstep
    rwa [← hstep.1]

/-- The chains stay whole in every run in which each stored block fits to the end of its own. -/
theorem exec_chainsIntact {o : List Empty} {as : List (Arrival H σ)} (hs : ChainsIntact s)
    (hfits : Machine.Along (BlockStore.receive D clockDrift) (Fits D) s as)
    (hrun : Machine.exec (BlockStore.receive D clockDrift) s as = some (s',o)) : ChainsIntact s' :=
  Machine.exec_preserves (fun _ _ _ _ _ h hfits hstep => receive_intact h hfits hstep) hs hfits hrun

end Run

/-- Blocks of two delegates, one of which makes two, in the first epoch after the genesis. -/
def sampleArrivals : List (Arrival ℕ Unit) :=
  let first : RequestBlock ℕ Unit := sampleBlock 0 3 0 0 []
  [first,sampleBlock 1 3 0 0 [],sampleBlock 0 3 1 (Digests.sample.requestHash first) []].map
    fun b => ⟨b,none,0,fun _ => true⟩

theorem chainsIntact_of_empty {s : BlockStore H σ} (hempty : s.requestBlocks = ∅) :
    ChainsIntact s := by
  have hnone : ∀ (h : H) (b : RequestBlock H σ),s.requestBlocks.lookup h ≠ some b := by
    intro h b
    rw [hempty]
    simp
  exact ⟨fun h b hb => absurd hb (hnone h b),fun h _ b _ hb => absurd hb (hnone h b),
    fun h b hb => absurd hb (hnone h b),fun h b hb => absurd hb (hnone h b),
    fun h b _ hb => absurd hb (hnone h b),fun h b hb => absurd hb (hnone h b)⟩

theorem exec_chainsIntact_sample :
    ∃ r,Machine.exec (BlockStore.receive Digests.sample 0)
      { (BlockStore.empty : BlockStore ℕ Unit) with epochTip := some ⟨2,2,1⟩ } sampleArrivals =
        some r ∧ r.1.requestBlocks.keys.length = 3 ∧ ChainsIntact r.1 := by
  have hrun : ((Machine.exec (BlockStore.receive Digests.sample 0)
      { (BlockStore.empty : BlockStore ℕ Unit) with epochTip := some ⟨2,2,1⟩ }
      sampleArrivals).map fun r => r.1.requestBlocks.keys.length) = some 3 := by decide +kernel
  have hfits : Machine.checks (BlockStore.receive Digests.sample 0)
      (fun s a => decide (Fits Digests.sample s a))
      { (BlockStore.empty : BlockStore ℕ Unit) with epochTip := some ⟨2,2,1⟩ } sampleArrivals =
        true := by decide +kernel
  obtain ⟨r,hr,hlength⟩ := map_eq_some_iff.mp hrun
  exact ⟨r,hr,hlength,exec_chainsIntact (chainsIntact_of_empty rfl)
    (Machine.along_of_decide hfits) hr⟩

/-- A block of one delegate, and the first block of another in the next epoch that names it. -/
def crossingArrivals : List (Arrival ℕ Unit) :=
  let first : RequestBlock ℕ Unit := sampleBlock 0 3 0 0 []
  [first,sampleBlock 1 4 0 (Digests.sample.requestHash first) []].map
    fun b => ⟨b,none,0,fun _ => true⟩

/-- The first block of an epoch may name the block of another delegate, which then points to it. -/
theorem first_block_crosses :
    ∃ r,Machine.exec (BlockStore.receive Digests.sample 0)
      { (BlockStore.empty : BlockStore ℕ Unit) with epochTip := some ⟨2,2,1⟩ } crossingArrivals =
        some r ∧ ¬ChainsIntact r.1 := by
  have hrun : ((Machine.exec (BlockStore.receive Digests.sample 0)
      { (BlockStore.empty : BlockStore ℕ Unit) with epochTip := some ⟨2,2,1⟩ }
      crossingArrivals).map fun r => r.1.requestBlocks.entries.any fun e =>
        e.2.next ≠ 0 ∧ ((r.1.requestBlocks.lookup e.2.next).map (·.primaryDelegate)).any
          (· ≠ e.2.primaryDelegate)) = some true := by decide +kernel
  obtain ⟨r,hr,hany⟩ := map_eq_some_iff.mp hrun
  refine ⟨r,hr,fun h => ?_⟩
  obtain ⟨e,he,hcross⟩ := List.any_eq_true.mp hany
  obtain ⟨hne,hcross⟩ := of_decide_eq_true hcross
  obtain ⟨d,hd,hother⟩ := (any_eq_true _ _).mp hcross
  obtain ⟨b',hb',rfl⟩ := map_eq_some_iff.mp hd
  exact of_decide_eq_true hother (h.nextWithin e.1 e.2 b' (mem_lookup_iff.mpr he) hne hb')

end LogosCore.Archive
