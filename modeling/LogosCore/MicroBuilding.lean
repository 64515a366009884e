import LogosCore.MicroBlocks

/-! # Building micro blocks

`Build` follows the chains of request blocks from the tips of the last micro block up to a cutoff,
and counts the blocks on the way. Where the chains are in order the count is the one that the
validation makes from the numbers in the tips. -/
namespace LogosCore.Archive

open AList Option Check
open BlockStore (receive)
open Digests (sample)

/-- What `Build` takes from the clock and from the recall handler. -/
structure BuildTime where
  now : BitVec 64
  curEpoch : BitVec 32
  isPastEpochBlockTime : Bool
  isRecall : Bool

def microBlockCutoffTime : BitVec 64 := 600000

def slowCutoff (now : BitVec 64) : BitVec 64 :=
  now - now % microBlockCutoffTime - microBlockCutoffTime

variable {H σ : Type} [DecidableEq H] [Zero H] (D : Digests H)

/-- The tip after some blocks have been passed going forward. -/
def tipAfter (old : Tip H) (blocks : List (RequestBlock H σ)) : Tip H :=
  (blocks.getLast?.map fun b => tipOf b (D.requestHash b)).getD old

/-- A tip that was not found stays as it was. -/
def keepTip (old new : Tip H) : Tip H := if new.digest = 0 then old else new

/-- The tip at the first of some blocks passed going back. -/
def tipBefore (blocks : List (RequestBlock H σ)) : Tip H :=
  blocks.foldl (fun tip b => if tip.digest = 0 then tipOf b (D.requestHash b) else tip) 0

def ofDelegate (d : Fin numDelegates) (blocks : List (Fin numDelegates × RequestBlock H σ)) :
    List (RequestBlock H σ) :=
  (blocks.filter fun p => p.1 = d).map Prod.snd

namespace BlockStore

variable (s : BlockStore H σ)

/-- `GetTipsFast`: go on from the tips of the last micro block; a tip without a block after it
stays. -/
def getTipsFast (start : Fin numDelegates → Tip H) (cutoff : BitVec 64) :
    Option ((Fin numDelegates → Tip H) × BitVec 32) := do
  let blocks ← batchBlocks s.requestBlocks (·.next) (fun _ _ b => b.timestamp < cutoff)
    (fun d => ((s.requestBlocks.lookup (start d).digest).map (·.next)).getD 0)
    (List.finRange numDelegates)
  some (fun d => keepTip (start d) (tipAfter D 0 (ofDelegate d blocks)),
    BitVec.ofNat 32 blocks.length)

/-- `GetTipsSlow`: go back from the current tips, and leave out what is after the cutoff. -/
def getTipsSlow (start stop : Fin numDelegates → H) (cutoff : BitVec 64) :
    Option ((Fin numDelegates → Tip H) × BitVec 32) := do
  let blocks ← batchBlocks s.requestBlocks (·.previous) (fun d k _ => k ≠ stop d) start
    (List.finRange numDelegates)
  let kept := blocks.filter fun p => p.2.timestamp ≤ cutoff
  some (fun d => tipBefore D (ofDelegate d kept),BitVec.ofNat 32 kept.length)

/-- The tips behind the micro block `p`, and the number of blocks on the way to them. -/
def buildTips (p : MicroBlock H σ) (now : BitVec 64) :
    Option ((Fin numDelegates → Tip H) × BitVec 32) :=
  if p.epochNumber = genesisEpoch then
    s.getTipsSlow D (s.tipDigest (p.epochNumber + 1)) (fun d => (p.body.tips d).digest)
      (slowCutoff now)
  else s.getTipsFast D p.body.tips p.timestamp

/-- A micro block after the last of an epoch belongs to the next epoch. -/
def builtEpoch (p : MicroBlock H σ) : BitVec 32 :=
  if p.body.lastMicroBlock ≠ 0 then p.epochNumber + 1 else p.epochNumber

def isLastMicroBlock (time : BuildTime) (epoch : EpochBlock H σ) : Bool :=
  !time.isRecall && (decide (epoch.epochNumber = time.curEpoch - 2) && time.isPastEpochBlockTime)

/-- `Build` of the micro blocks; no block is built as long as the last epoch block is missing. -/
def buildMicroBlock (time : BuildTime) (version : BitVec 8) (sig : σ) :
    Option (Option (MicroBlock H σ)) := do
  let tip ← s.microBlockTip
  let p ← s.microBlocks.lookup tip.digest
  if tip.digest ≠ D.microBlockHash p then none
  else do
    let epochTip ← s.epochTip
    let epoch ← s.epochs.lookup epochTip.digest
    if isLastMicroBlock time epoch = true ∧ p.body.lastMicroBlock ≠ 0 then some none
    else do
      let r ← s.buildTips D p time.now
      some (some ⟨⟨⟨0xff,builtEpoch p,0,p.sequence + 1,time.now,tip.digest,sig⟩,version,
        ⟨if isLastMicroBlock time epoch then 1 else 0,r.2,r.1⟩⟩,0⟩)

end BlockStore

open BlockStore

section Accepted

variable {s : BlockStore H σ} {d : Fin numDelegates} {e : BitVec 32} {cutoff : BitVec 64}

/-- The block a block points to names it as the one before, and it is there. -/
structure NextLinks (s : BlockStore H σ) : Prop where
  back : ∀ h b,s.requestBlocks.lookup h = some b →
    ∀ b' ∈ s.requestBlocks.lookup b.next,b'.previous = h
  stored : ∀ h b,s.requestBlocks.lookup h = some b → b.next ≠ 0 → b.next ∈ s.requestBlocks

/-- Before the cutoff, what follows the block with the given hash is of the epoch. -/
def StaysWithin (s : BlockStore H σ) (e : BitVec 32) (cutoff : BitVec 64) (h : H) : Prop :=
  ∀ b ∈ s.requestBlocks.lookup h,∀ b' ∈ s.requestBlocks.lookup b.next,
    b'.timestamp < cutoff → b'.epochNumber = e

def StaysIn (s : BlockStore H σ) (e : BitVec 32) (cutoff : BitVec 64) : Prop :=
  ∀ h b,s.requestBlocks.lookup h = some b → b.epochNumber = e → StaysWithin s e cutoff h

/-- The blocks are stored under their hashes. -/
def KeysAreHashes (s : BlockStore H σ) : Prop :=
  ∀ h b,s.requestBlocks.lookup h = some b → D.requestHash b = h

/-- No block is older than the one before it. -/
def TimesOrdered (s : BlockStore H σ) : Prop :=
  ∀ h b,s.requestBlocks.lookup h = some b →
    ∀ p ∈ s.requestBlocks.lookup b.previous,p.timestamp ≤ b.timestamp

/-- The tip of the delegate, if there is one, is that of a block of the epoch. -/
def TipWithin (s : BlockStore H σ) (d : Fin numDelegates) (e : BitVec 32) : Prop :=
  ∀ t ∈ s.requestTips.lookup (tipKey d e),Names s d t ∧ t.epoch = e

/-- A store in which a micro block can be built behind `p`: the tips are those of `p` and of the
epoch block before, and the chains are in order. After the genesis they start with the epoch and by
age; later, what follows the tips up to the cutoff is of the epoch. -/
structure BuildsOn (s : BlockStore H σ) (p : MicroBlock H σ) : Prop where
  tip : s.microBlockTip = some (tipOf p (D.microBlockHash p))
  stored : s.microBlocks.lookup (D.microBlockHash p) = some p
  epoch : ∃ t,s.epochTip = some t ∧ t.digest ∈ s.epochs ∧ t.epoch + 1 = builtEpoch p
  chains : ChainsOrdered s
  keys : KeysAreHashes D s
  tips : ∀ d,Sound s d (p.body.tips d)
  slow : p.epochNumber = genesisEpoch → p.body.lastMicroBlock ≠ 0 ∧
    (∀ d,(p.body.tips d).digest = 0) ∧ (∀ d,TipWithin s d (builtEpoch p)) ∧
    (∀ d,StartsBehind s d (builtEpoch p) 0) ∧ TimesOrdered s
  fast : p.epochNumber ≠ genesisEpoch → NextLinks s ∧
    (∀ d,StaysWithin s (builtEpoch p) p.timestamp (p.body.tips d).digest) ∧
    StaysIn s (builtEpoch p) p.timestamp

/-- The tips that were collected name blocks, and the number is that by which they are ahead. -/
structure Collected (s : BlockStore H σ) (e : BitVec 32) (old : Fin numDelegates → Tip H)
    (r : (Fin numDelegates → Tip H) × BitVec 32) : Prop where
  named : ∀ d,Sound s d (r.1 d)
  counted : ∃ n : Fin numDelegates → ℕ,(∀ d,place e (r.1 d) = place e (old d) + n d) ∧
    r.2 = BitVec.ofNat 32 (∑ d,n d)

variable {old : Fin numDelegates → Tip H}

theorem Collected.addedBlocks_eq
    {r : (Fin numDelegates → Tip H) × BitVec 32} (h : Collected s e old r) :
    addedBlocks e r.1 old = r.2 := by
  obtain ⟨n,hplace,hnumber⟩ := h.counted
  have hsum := addedBlocks_add e r.1 old
  simp only [hplace,Finset.sum_add_distrib,BitVec.ofNat_add] at hsum
  rw [add_comm (BitVec.ofNat 32 (∑ d,place e (old d)))] at hsum
  rw [hnumber]
  exact add_right_cancel hsum

variable (path : Fin numDelegates → List (RequestBlock H σ))

theorem ofDelegate_flatMap (d : Fin numDelegates) :
    ofDelegate d ((List.finRange numDelegates).flatMap fun d => (path d).map (d,·)) = path d := by
  have hfilter : ((List.finRange numDelegates).flatMap fun d => (path d).map (d,·)).filter
      (fun p => decide (p.1 = d ∧ True)) = _ :=
    filter_flatMap_pair (List.nodup_finRange numDelegates) d fun _ => True
  simp only [and_true,decide_true,List.filter_true,List.mem_finRange,↓reduceIte] at hfilter
  rw [ofDelegate,hfilter,List.map_map]
  exact List.map_id _

theorem length_flatMap_pair :
    ((List.finRange numDelegates).flatMap fun d => (path d).map (d,·)).length =
      ∑ d,(path d).length := by
  simp only [List.length_flatMap,List.length_map,Fin.sum_univ_def]

theorem filter_flatMap_second (c : RequestBlock H σ → Bool) :
    ((List.finRange numDelegates).flatMap fun d => (path d).map (d,·)).filter (fun p => c p.2) =
      (List.finRange numDelegates).flatMap fun d => ((path d).filter c).map (d,·) := by
  simp only [List.filter_flatMap,List.filter_map,Function.comp_def]

variable {blocks : List (RequestBlock H σ)}

section Fast

theorem isBefore_of_next (hs : ChainsOrdered s) (hlinks : NextLinks s) {t : Tip H}
    {b b' : RequestBlock H σ} (hnames : Names s d t) (hb : s.requestBlocks.lookup t.digest = some b)
    (hb' : s.requestBlocks.lookup b.next = some b') :
    Names s d (tipOf b' b.next) ∧ IsBefore s (tipOf b' b.next) t := by
  have hback := hlinks.back _ b hb b' hb'
  have hdelegate : b'.primaryDelegate = BitVec.ofNat 8 d := by
    obtain ⟨q,hq,hown⟩ := hs.previousWithin _ b' hb' (hback ▸ hnames.ne_zero hs)
    obtain ⟨b0,hb0,hd,-⟩ := hnames
    rw [hback,hb0,some.injEq] at hq
    rw [← hown,← hq,hd]
  have hnames' : Names s d (tipOf b' b.next) := ⟨b',hb',hdelegate,rfl⟩
  refine ⟨hnames',?_⟩
  obtain ⟨t',hsound,hbefore⟩ := hnames'.exists_before hs
  obtain ⟨c,hc,hprevious⟩ := hbefore.block
  obtain rfl : b' = c := some.inj (hb'.symm.trans hc)
  have hdigest : t'.digest = t.digest := hprevious.symm.trans hback
  have heq : t' = t := (hsound (hdigest ▸ hnames.ne_zero hs)).unique hnames hdigest
  rwa [heq] at hbefore

theorem exists_walk_next (hs : ChainsOrdered s) (hlinks : NextLinks s)
    (goOn : H → RequestBlock H σ → Bool) (k : H) :
    ∃ r,s.requestBlocks.walk (·.next) goOn (s.requestBlocks.entries.length + 1) k = some r := by
  refine Table.exists_walk
    (fun b : RequestBlock H σ => b.epochNumber.toNat * 2^32 + b.sequence.toNat)
    (fun k v w hv hw => ?_) k
  have hback := hlinks.back k v hv w hw
  by_cases hseq : w.sequence = 0
  · have hlt := hs.earlier _ w hw hseq v (by rw [hback]; exact hv)
    have := BitVec.lt_def.mp hlt
    omega
  · obtain ⟨q,hq,hslot,hnumber,-⟩ := hs.linked _ w hw hseq
    rw [hback,hv,some.injEq] at hq
    subst hq
    have hepoch : v.epochNumber = w.epochNumber := congrArg Prod.snd hslot
    have hlt : v.sequence.toNat < w.sequence.toNat := by bv_omega
    rw [hepoch]
    exact Nat.add_lt_add_left hlt _

theorem tipAfter_cons (old : Tip H) (b : RequestBlock H σ) (blocks : List (RequestBlock H σ)) :
    tipAfter D old (b::blocks) = tipAfter D (tipOf b (D.requestHash b)) blocks := by
  simp only [tipAfter,List.getLast?_cons,map_some,getD_some]
  cases blocks.getLast? with
  | none => rfl
  | some c => rfl

variable {D}

/-- A walk forward within the epoch moves the tip as far as it passes blocks. -/
theorem Names.tipAfter (hs : ChainsOrdered s) (hlinks : NextLinks s) (hkeys : KeysAreHashes D s)
    (hwithin : StaysIn s e cutoff) {t : Tip H} {b : RequestBlock H σ} {k : H} (hnames : Names s d t)
    (hb : s.requestBlocks.lookup t.digest = some b) (hstart : StaysWithin s e cutoff t.digest)
    (hpassed : s.requestBlocks.Passed (·.next) (fun _ b => decide (b.timestamp < cutoff)) b.next
      blocks k) :
    (s.requestBlocks.lookup k = none → k = 0) ∧ Names s d (tipAfter D t blocks) ∧
      place e (Archive.tipAfter D t blocks) = place e t + blocks.length := by
  induction blocks generalizing t b with
  | nil =>
    obtain ⟨rfl,-⟩ := hpassed
    refine ⟨fun hnone => ?_,hnames,rfl⟩
    by_contra hne
    exact lookup_eq_none.mp hnone (hlinks.stored _ b hb hne)
  | cons b' blocks ih =>
    obtain ⟨hb',htime,hrest⟩ := hpassed
    obtain ⟨hnames',hbefore⟩ := isBefore_of_next hs hlinks hnames hb hb'
    have hepoch := hstart b hb b' hb' (of_decide_eq_true htime)
    obtain ⟨hend,hlast,hplace⟩ := ih hnames' hb' (hwithin _ b' hb' hepoch) hrest
    rw [tipAfter_cons,hkeys _ b' hb']
    refine ⟨hend,hlast,?_⟩
    rw [hplace,hbefore.place_eq (hnames'.ne_zero hs) hepoch,List.length_cons]
    omega

theorem Sound.walk_next (hs : ChainsOrdered s) (hlinks : NextLinks s) (hkeys : KeysAreHashes D s)
    (hwithin : StaysIn s e cutoff) {old : Tip H} (hold : Sound s d old)
    (hstart : StaysWithin s e cutoff old.digest) :
    ∃ blocks k,s.requestBlocks.walk (·.next) (fun _ b => decide (b.timestamp < cutoff))
        (s.requestBlocks.entries.length + 1)
        (((s.requestBlocks.lookup old.digest).map (·.next)).getD 0) = some (blocks,k) ∧
      (s.requestBlocks.lookup k = none → k = 0) ∧
      Sound s d (keepTip old (tipAfter D 0 blocks)) ∧
      place e (keepTip old (tipAfter D 0 blocks)) = place e old + blocks.length := by
  have hkept : keepTip old (tipAfter D 0 ([] : List (RequestBlock H σ))) = old := if_pos rfl
  obtain ⟨⟨blocks,k⟩,hwalk⟩ := exists_walk_next hs hlinks
    (fun _ b => decide (b.timestamp < cutoff))
    (((s.requestBlocks.lookup old.digest).map (·.next)).getD 0)
  refine ⟨blocks,k,hwalk,?_⟩
  have hpassed := Table.passed_of_walk hwalk
  cases hb : s.requestBlocks.lookup old.digest with
  | none =>
    rw [hb] at hpassed
    cases blocks with
    | nil =>
      obtain ⟨rfl,-⟩ := hpassed
      rw [hkept]
      exact ⟨fun _ => rfl,hold,rfl⟩
    | cons b blocks =>
      have hzero : s.requestBlocks.lookup 0 = some b := hpassed.1
      rw [lookup_eq_none.mpr hs.zero] at hzero
      cases hzero
  | some b =>
    rw [hb] at hpassed
    have hne : old.digest ≠ 0 := by
      intro hzero
      rw [hzero,lookup_eq_none.mpr hs.zero] at hb
      cases hb
    obtain ⟨hend,hnames,hplace⟩ := (hold hne).tipAfter hs hlinks hkeys hwithin hb hstart hpassed
    refine ⟨hend,?_⟩
    cases blocks with
    | nil =>
      rw [hkept]
      exact ⟨hold,rfl⟩
    | cons c blocks =>
      rw [tipAfter_cons] at hnames hplace ⊢
      rw [keepTip,if_neg (hnames.ne_zero hs)]
      exact ⟨fun _ => hnames,hplace⟩

theorem getTipsFast_collected (hs : ChainsOrdered s) (hlinks : NextLinks s)
    (hkeys : KeysAreHashes D s) (hwithin : StaysIn s e cutoff) (hold : ∀ d,Sound s d (old d))
    (hstart : ∀ d,StaysWithin s e cutoff (old d).digest) :
    ∃ r,s.getTipsFast D old cutoff = some r ∧ Collected s e old r := by
  choose path stop hwalk hstop hsound hplace using fun d =>
    (hold d).walk_next hs hlinks hkeys hwithin (hstart d)
  refine ⟨(fun d => keepTip (old d) (tipAfter D 0 (path d)),BitVec.ofNat 32 (∑ d,(path d).length)),
    ?_,hsound,fun d => (path d).length,hplace,rfl⟩
  rw [getTipsFast,batchBlocks_of_walk hwalk hstop]
  simp only [bind_eq_bind,bind_some,ofDelegate_flatMap,length_flatMap_pair]

end Fast

section Slow

variable {D}

theorem foldl_tip_of_ne (blocks : List (RequestBlock H σ)) {tip : Tip H} (hne : tip.digest ≠ 0) :
    blocks.foldl (fun tip b => if tip.digest = 0 then tipOf b (D.requestHash b) else tip) tip =
      tip := by
  induction blocks with
  | nil => rfl
  | cons b blocks ih => rw [List.foldl_cons,if_neg hne,ih]

theorem tipBefore_cons {b : RequestBlock H σ} (hne : D.requestHash b ≠ 0)
    (blocks : List (RequestBlock H σ)) : tipBefore D (b::blocks) = tipOf b (D.requestHash b) := by
  have hzero : (0 : Tip H).digest = 0 := rfl
  rw [tipBefore,List.foldl_cons,if_pos hzero]
  exact foldl_tip_of_ne blocks hne

/-- On a walk back the times go down. -/
theorem TimesOrdered.le_of_visits (htimes : TimesOrdered s) {k stop : H} {time : BitVec 64}
    (hvisits : s.requestBlocks.Visits (·.previous) stop k blocks)
    (hle : ∀ b ∈ s.requestBlocks.lookup k,b.timestamp ≤ time) : ∀ b ∈ blocks,b.timestamp ≤ time := by
  induction blocks generalizing k with
  | nil => exact fun b hb => absurd hb List.not_mem_nil
  | cons c blocks ih =>
    obtain ⟨-,hc,hrest⟩ := hvisits
    have hc' := hle c hc
    intro b hb
    rcases List.mem_cons.mp hb with rfl | hb
    · exact hc'
    · refine ih hrest (fun q hq => ?_) b hb
      have := htimes k c hc q hq
      bv_omega

theorem Sound.tipBefore (hs : ChainsOrdered s) (htimes : TimesOrdered s)
    (hkeys : KeysAreHashes D s) {t : Tip H} (hsound : Sound s d t)
    (hvisits : s.requestBlocks.Visits (·.previous) 0 t.digest blocks)
    (hplace : place e t = blocks.length) :
    Sound s d (tipBefore D (blocks.filter fun b => b.timestamp ≤ cutoff)) ∧
      place e (Archive.tipBefore D (blocks.filter fun b => b.timestamp ≤ cutoff)) =
        (blocks.filter fun b => b.timestamp ≤ cutoff).length := by
  induction blocks generalizing t with
  | nil =>
    refine ⟨fun hne => absurd rfl hne,?_⟩
    rw [List.filter_nil,place_of_not fun hc => hc.2 rfl]
    rfl
  | cons b blocks ih =>
    have hold : place e (0 : Tip H) = 0 := place_of_not fun hc => hc.2 rfl
    have hvisits' : s.requestBlocks.Visits (·.previous) (0 : Tip H).digest t.digest (b::blocks) :=
      hvisits
    have hnames := visits_names hs hsound hvisits'
    by_cases hb : b.timestamp ≤ cutoff
    · have hall : ∀ c ∈ b::blocks,decide (c.timestamp ≤ cutoff) = true := by
        intro c hc
        refine decide_eq_true (htimes.le_of_visits hvisits (fun q hq => ?_) c hc)
        rw [hvisits.2.1] at hq
        rwa [← some.inj hq]
      have hhash : D.requestHash b = t.digest := hkeys _ b hvisits.2.1
      have htip : Archive.tipBefore D (b::blocks) = t := by
        rw [tipBefore_cons (hhash ▸ hnames.ne_zero hs),hhash]
        obtain ⟨b',hb',-,ht⟩ := hnames
        rw [hvisits.2.1,mem_some_iff] at hb'
        rw [hb']
        exact ht.symm
      rw [List.filter_eq_self.mpr hall,htip]
      exact ⟨hsound,hplace⟩
    · obtain ⟨t',hsound',hbefore,-,hrest⟩ := hnames.visits_cons hs hvisits'
      have hplace' : place e t' = blocks.length := by
        have hle : place e t' ≤ place e (0 : Tip H) + blocks.length :=
          place_le_of_visits hs hsound' (fun hne => absurd rfl hne) hrest
        have hone : place e t ≤ place e t' + 1 := hbefore.place_le
        rw [hplace,List.length_cons] at hone
        omega
      rw [List.filter_cons_of_neg (by simpa using hb)]
      exact ih hsound' hrest hplace'

theorem TipWithin.visits (hs : ChainsOrdered s) (htip : TipWithin s d e)
    (hstart : StartsBehind s d e 0) :
    ∃ t blocks,t.digest = s.tipDigest e d ∧ Sound s d t ∧
      s.requestBlocks.Visits (·.previous) 0 t.digest blocks ∧ place e t = blocks.length := by
  have hold : Sound s d (0 : Tip H) := fun hne => absurd rfl hne
  have hzero : ¬((0 : Tip H).epoch = e ∧ (0 : Tip H).digest ≠ 0) := fun hc => hc.2 rfl
  cases ht : s.requestTips.lookup (tipKey d e) with
  | none =>
    refine ⟨0,[],?_,hold,rfl,place_of_not hzero⟩
    rw [tipDigest,ht]
    rfl
  | some t =>
    obtain ⟨hnames,hepoch⟩ := htip t ht
    obtain ⟨blocks,-,hvisits,hplace⟩ := hnames.visits_to_start hs hepoch hold hzero hstart
    refine ⟨t,blocks,?_,fun _ => hnames,hvisits,?_⟩
    · rw [tipDigest,ht]
      rfl
    · rw [hplace,place_of_not hzero,Nat.zero_add]

theorem getTipsSlow_collected (hs : ChainsOrdered s) (htimes : TimesOrdered s)
    (hkeys : KeysAreHashes D s)
    (htip : ∀ d,TipWithin s d e) (hstart : ∀ d,StartsBehind s d e 0) (hold : ∀ d,(old d).digest = 0) :
    ∃ r,s.getTipsSlow D (s.tipDigest e) (fun d => (old d).digest) cutoff = some r ∧
      Collected s e old r := by
  choose t path hdigest hsound hvisits hplace using fun d => (htip d).visits hs (hstart d)
  let kept : Fin numDelegates → List (RequestBlock H σ) := fun d =>
    (path d).filter fun b => b.timestamp ≤ cutoff
  have hkept : ∀ d,Sound s d (Archive.tipBefore D (kept d)) ∧
      place e (Archive.tipBefore D (kept d)) = (kept d).length :=
    fun d => (hsound d).tipBefore hs htimes hkeys (hvisits d) (hplace d)
  have hblocks : batchBlocks s.requestBlocks (·.previous) (fun d k _ => decide (k ≠ (old d).digest))
      (s.tipDigest e) (List.finRange numDelegates) =
        some ((List.finRange numDelegates).flatMap fun d => (path d).map (d,·)) := by
    simp only [hold]
    exact batchBlocks_of_visits (fun d => hdigest d ▸ hvisits d) _
  refine ⟨(fun d => Archive.tipBefore D (kept d),BitVec.ofNat 32 (∑ d,(kept d).length)),?_,
    fun d => (hkept d).1,fun d => (kept d).length,fun d => ?_,rfl⟩
  · have hfilter := filter_flatMap_second path fun b => decide (b.timestamp ≤ cutoff)
    rw [getTipsSlow,hblocks]
    simp only [bind_eq_bind,bind_some,hfilter,ofDelegate_flatMap,length_flatMap_pair,kept]
  · rw [place_of_not fun hc : (old d).epoch = e ∧ (old d).digest ≠ 0 => hc.2 (hold d),Nat.zero_add]
    exact (hkept d).2

end Slow

variable {D} {p : MicroBlock H σ}

theorem BuildsOn.collected (h : BuildsOn D s p) (now : BitVec 64) :
    ∃ r,s.buildTips D p now = some r ∧ Collected s (builtEpoch p) p.body.tips r := by
  unfold buildTips
  by_cases hgenesis : p.epochNumber = genesisEpoch
  · obtain ⟨hlast,hzero,htip,hstart,htimes⟩ := h.slow hgenesis
    have hepoch : builtEpoch p = p.epochNumber + 1 := if_pos hlast
    rw [if_pos hgenesis,← hepoch]
    exact getTipsSlow_collected h.chains htimes h.keys htip hstart hzero
  · obtain ⟨hlinks,hstart,hwithin⟩ := h.fast hgenesis
    rw [if_neg hgenesis]
    exact getTipsFast_collected h.chains hlinks h.keys hwithin h.tips hstart

/-- What is built behind `p` is accepted, whoever proposes it. -/
theorem BuildsOn.accepted (h : BuildsOn D s p) (time : BuildTime) (version : BitVec 8) (sig : σ) :
    ∃ r,s.buildMicroBlock D time version sig = some r ∧ ∀ m ∈ r,
      ∀ primary : BitVec 8,primary.toNat < numDelegates →
        (s.validateMicroBlock { m with primaryDelegate := primary } none).Accepts () := by
  obtain ⟨t,ht,hmem,hepoch⟩ := h.epoch
  obtain ⟨epoch,hlookup⟩ := isSome_iff_exists.mp (lookup_isSome.mpr hmem)
  obtain ⟨r,hr,hcollected⟩ := h.collected time.now
  rw [buildMicroBlock,h.tip]
  simp only [bind_eq_bind,bind_some,tipOf,h.stored,ne_eq,not_true,↓reduceIte,ht,hlookup,hr]
  split
  · exact ⟨none,rfl,fun m hm => by cases hm⟩
  · refine ⟨_,rfl,fun m hm primary hprimary => ?_⟩
    obtain rfl := some.inj hm
    refine accepts_validateMicroBlock.mpr ⟨fun _ => ?_,fun _ d _ => ?_,fun _ => ⟨p,?_⟩⟩
    · rw [← lookup_isSome]
      exact h.stored ▸ rfl
    · by_cases hzero : (r.1 d).digest = 0
      · exact .inl hzero
      · obtain ⟨b,hb,-⟩ := hcollected.named d hzero
        exact .inr (lookup_isSome.mp (hb ▸ rfl))
    · exact ⟨h.stored,rfl,h.tip,hcollected.addedBlocks_eq,hprimary,t,ht,hmem,hepoch⟩

end Accepted

section Agreement

variable {s1 s2 : BlockStore H σ}

/-- Two stores with the same chains and tips, whose last micro and epoch blocks agree in what their
hashes cover and in the time of the micro block. -/
structure SameView (s1 s2 : BlockStore H σ) : Prop where
  blocks : ∀ k,s1.requestBlocks.lookup k = s2.requestBlocks.lookup k
  tips : ∀ key,s1.requestTips.lookup key = s2.requestTips.lookup key
  microBlockTip : s1.microBlockTip.map Tip.digest = s2.microBlockTip.map Tip.digest
  epochTip : s1.epochTip.map Tip.digest = s2.epochTip.map Tip.digest
  microBlock : ∀ t ∈ s1.microBlockTip,∀ p1 ∈ s1.microBlocks.lookup t.digest,
    ∀ p2 ∈ s2.microBlocks.lookup t.digest,p1.image true = p2.image true ∧ p1.body = p2.body ∧
      p1.timestamp = p2.timestamp
  epoch : ∀ t ∈ s1.epochTip,∀ e1 ∈ s1.epochs.lookup t.digest,∀ e2 ∈ s2.epochs.lookup t.digest,
    e1.image true = e2.image true

theorem batchBlocks_congr {t t' : Table H (RequestBlock H σ)} (h : ∀ k,t.lookup k = t'.lookup k)
    (link : RequestBlock H σ → H) (goOn : Fin numDelegates → H → RequestBlock H σ → Bool)
    (start : Fin numDelegates → H) (ds : List (Fin numDelegates)) :
    batchBlocks t link goOn start ds = batchBlocks t' link goOn start ds := by
  induction ds with
  | nil => rfl
  | cons d ds ih =>
    simp only [batchBlocks,Table.walk_congr h,Table.length_entries_congr h,h,ih]

theorem buildTips_congr {p1 p2 : MicroBlock H σ}
    (hblocks : ∀ k,s1.requestBlocks.lookup k = s2.requestBlocks.lookup k)
    (htips : ∀ key,s1.requestTips.lookup key = s2.requestTips.lookup key)
    (hepoch : p1.epochNumber = p2.epochNumber) (hbody : p1.body = p2.body)
    (htime : p1.timestamp = p2.timestamp) (now : BitVec 64) :
    s1.buildTips D p1 now = s2.buildTips D p2 now := by
  have htip : s1.tipDigest = s2.tipDigest := by
    funext epoch d
    rw [tipDigest,tipDigest,htips]
  rw [buildTips,buildTips,hepoch,hbody,htime]
  simp only [getTipsFast,getTipsSlow,batchBlocks_congr hblocks,hblocks,htip]

theorem exists_of_buildMicroBlock {s : BlockStore H σ} {time : BuildTime} {version : BitVec 8}
    {sig : σ} {r : Option (MicroBlock H σ)} (h : s.buildMicroBlock D time version sig = some r) :
    ∃ tip p epochTip epoch,s.microBlockTip = some tip ∧ s.microBlocks.lookup tip.digest = some p ∧
      s.epochTip = some epochTip ∧ s.epochs.lookup epochTip.digest = some epoch ∧
      if isLastMicroBlock time epoch = true ∧ p.body.lastMicroBlock ≠ 0 then r = none
      else ∃ c,s.buildTips D p time.now = some c ∧
        r = some ⟨⟨⟨0xff,builtEpoch p,0,p.sequence + 1,time.now,tip.digest,sig⟩,version,
          ⟨if isLastMicroBlock time epoch then 1 else 0,c.2,c.1⟩⟩,0⟩ := by
  obtain ⟨tip,htip,h⟩ := bind_eq_some_iff.mp h
  obtain ⟨p,hp,h⟩ := bind_eq_some_iff.mp h
  split at h
  · cases h
  · obtain ⟨epochTip,hepochTip,h⟩ := bind_eq_some_iff.mp h
    obtain ⟨epoch,hepoch,h⟩ := bind_eq_some_iff.mp h
    refine ⟨tip,p,epochTip,epoch,htip,hp,hepochTip,hepoch,?_⟩
    split at h
    · next hlast =>
      rw [if_pos hlast]
      exact (some.inj h).symm
    · next hlast =>
      rw [if_neg hlast]
      obtain ⟨c,hc,h⟩ := bind_eq_some_iff.mp h
      exact ⟨c,hc,(some.inj h).symm⟩

/-- What two nodes with the same view build at the same time has the same hash. -/
theorem SameView.hash_eq (h : SameView s1 s2) {time : BuildTime} {version : BitVec 8} {sig1 sig2 : σ}
    {r1 r2 : Option (MicroBlock H σ)} (h1 : s1.buildMicroBlock D time version sig1 = some r1)
    (h2 : s2.buildMicroBlock D time version sig2 = some r2) :
    r1.map D.microBlockHash = r2.map D.microBlockHash := by
  obtain ⟨t1,p1,et1,e1,ht1,hp1,het1,he1,hr1⟩ := exists_of_buildMicroBlock D h1
  obtain ⟨t2,p2,et2,e2,ht2,hp2,het2,he2,hr2⟩ := exists_of_buildMicroBlock D h2
  have htip : t1.digest = t2.digest := by simpa [ht1,ht2] using h.microBlockTip
  have hepochTip : et1.digest = et2.digest := by simpa [het1,het2] using h.epochTip
  obtain ⟨himage,hbody,htime⟩ := h.microBlock t1 ht1 p1 hp1 p2 (htip ▸ hp2)
  have hepoch : e1.epochNumber = e2.epochNumber :=
    congrArg HeaderImage.epochNumber (h.epoch et1 het1 e1 he1 e2 (hepochTip ▸ he2))
  have hnumber : p1.epochNumber = p2.epochNumber := congrArg HeaderImage.epochNumber himage
  have hsequence : p1.sequence = p2.sequence := congrArg HeaderImage.sequence himage
  have hlast : isLastMicroBlock time e1 = isLastMicroBlock time e2 := by
    rw [isLastMicroBlock,isLastMicroBlock,hepoch]
  rw [hlast,hbody,buildTips_congr D h.blocks h.tips hnumber hbody htime] at hr1
  split at hr1
  · next hstop =>
    rw [if_pos hstop] at hr2
    rw [hr1,hr2]
  · next hgo =>
    rw [if_neg hgo] at hr2
    obtain ⟨c,hc,rfl⟩ := hr1
    obtain ⟨c',hc',rfl⟩ := hr2
    obtain rfl : c = c' := some.inj (hc.symm.trans hc')
    simp [Digests.microBlockHash,PrePrepareCommon.image,builtEpoch,hbody,hnumber,hsequence,htip]

end Agreement

section Sample

instance (s : BlockStore H σ) : Decidable (KeysAreHashes D s) :=
  decidable_of_iff _ Table.forall_entries_iff

instance (s : BlockStore H σ) : Decidable (TimesOrdered s) :=
  decidable_of_iff _ Table.forall_entries_iff

instance (s : BlockStore H σ) (d : Fin numDelegates) (e : BitVec 32) :
    Decidable (TipWithin s d e) :=
  Option.decidableForallMem ..

def sampleTime : BuildTime := ⟨1200000,4,false,false⟩

/-- The last micro block of the genesis, from another primary. -/
def otherGenesis : MicroBlock ℕ Unit := { genesisMicroBlock with primaryDelegate := 1 }

def otherPrimary (s : BlockStore ℕ Unit) : BlockStore ℕ Unit :=
  { s with
    microBlocks := AList.singleton (Digests.sample.microBlockHash otherGenesis) otherGenesis }

/-- The second of three blocks is younger than the third. -/
def lateArrivals : List (Arrival ℕ Unit) :=
  let first : RequestBlock ℕ Unit := sampleBlock 0 3 0 0 []
  let second : RequestBlock ℕ Unit :=
    { sampleBlock 0 3 1 (Digests.sample.requestHash first) [] with timestamp := 700000 }
  [first,second,sampleBlock 0 3 2 (Digests.sample.requestHash second) []].map
    fun b => ⟨b,none,0,fun _ => true⟩

/-- The store after a micro block of the given time with the first block of the first delegate. -/
def afterFirst (time : BitVec 64) (s : BlockStore ℕ Unit) : BlockStore ℕ Unit :=
  let m := firstMicroBlock 1 (sampleTip 0 0 0) 0
  { s with
    microBlocks := AList.singleton (Digests.sample.microBlockHash m) { m with timestamp := time }
    microBlockTip := some (tipOf m (Digests.sample.microBlockHash m)) }

end Sample

end LogosCore.Archive
