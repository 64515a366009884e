import LogosCore.RequestChains

/-! # Links across the boundary of an epoch

The request chains of two epochs are joined either when the epoch block between them is stored or,
where a delegate has not made a block by then, when its first block is. Both lead to the same
links and tips, wherever the epoch block comes among the request blocks. -/
namespace LogosCore.Archive

variable {H σ : Type} [DecidableEq H] [Zero H] (D : Digests H)

def tipKey (d : Fin numDelegates) (epoch : BitVec 32) : BitVec 8 × BitVec 32 :=
  (BitVec.ofNat 8 d,epoch)

/-- `BatchBlocksIterator`: what its receiver is called with. A missing hash ends the walk. -/
def batchBlocks (t : Table H (RequestBlock H σ)) (link : RequestBlock H σ → H)
    (goOn : Fin numDelegates → H → RequestBlock H σ → Bool) (start : Fin numDelegates → H) :
    List (Fin numDelegates) → Option (List (Fin numDelegates × RequestBlock H σ))
  | [] => some []
  | d::ds => do
    let r ← t.walk link (goOn d) (t.entries.length + 1) (start d)
    if t.lookup r.2 = none ∧ r.2 ≠ 0 then some (r.1.map (d,·))
    else do
      let rest ← batchBlocks t link goOn start ds
      some (r.1.map (d,·) ++ rest)

namespace BlockStore

variable (s : BlockStore H σ)

def tipDigest (epoch : BitVec 32) (d : Fin numDelegates) : H :=
  ((s.requestTips.lookup (tipKey d epoch)).getD 0).digest

/-- `GetEpochFirstRBs`: back from the tips, the block of each delegate with none before it. -/
def getEpochFirstRBs (epoch : BitVec 32) : Option (Fin numDelegates → Tip H) := do
  let blocks ← batchBlocks s.requestBlocks (·.previous) (fun _ k _ => k ≠ 0) (s.tipDigest epoch)
    (List.finRange numDelegates)
  some fun d => (((blocks.filter fun p => p.1 = d ∧ p.2.previous = 0).getLast?).map
    fun p => tipOf p.2 (D.requestHash p.2)).getD 0

/-- Let the tip of the last epoch stand for the current one as well, or link the two chains. -/
def rollOrLink (d : Fin numDelegates) (epoch : BitVec 32) (prevLast first : Tip H) :
    Option (BlockStore H σ) :=
  if first.digest = 0 then
    some { s with requestTips := s.requestTips.insert (tipKey d epoch) prevLast }
  else do
    let blocks ← updateNext s.requestBlocks prevLast.digest first.digest
    let blocks ← updatePrev blocks first.digest prevLast.digest
    some { s with requestBlocks := blocks }

def linkAndUpdateTips (d : Fin numDelegates) (epoch : BitVec 32) (first : Tip H) :
    Option (BlockStore H σ) := do
  let prevLast ← s.requestTips.lookup (tipKey d (epoch - 1))
  let s' ← s.rollOrLink d epoch prevLast first
  some { s' with requestTips := s'.requestTips.erase (tipKey d (epoch - 1)) }

/-- `ApplyUpdates` of the epoch blocks, as far as it concerns the chains. -/
def applyEpochBlock (eb : EpochBlock H σ) : Option (BlockStore H σ) :=
  if D.epochHash eb ∈ s.epochs then some s
  else do
    let epochs ← updateNext (s.epochs.insert (D.epochHash eb) eb) eb.previous (D.epochHash eb)
    let s' := { s with epochs := epochs,epochTip := some (tipOf eb (D.epochHash eb)) }
    if eb.epochNumber ≤ genesisEpoch then some s'
    else do
      let firsts ← s.getEpochFirstRBs D (eb.epochNumber + 1)
      (List.finRange numDelegates).foldlM
        (fun s d => s.linkAndUpdateTips d (eb.epochNumber + 1) (firsts d)) s'

end BlockStore

open AList Option BlockStore
open BitVec (ofNat toNat toNat_ofNat)
open Digests (sample)
open List (map_cons map_nil mem_cons mem_cons_of_mem mem_cons_self mem_finRange nodup_cons
  nodup_finRange)
open Machine (checks exec exec_cons_of_step)
open Prod (ext fst snd)

theorem tipKey_injective {d d' : Fin numDelegates} {e e' : BitVec 32} :
    tipKey d e = tipKey d' e' ↔ d = d' ∧ e = e' := by
  have hlt : ∀ d : Fin numDelegates,d.val < 2 ^ 8 := fun d => lt_trans d.isLt (by decide)
  constructor
  · intro h
    obtain ⟨hd,he⟩ := Prod.mk.inj h
    have hd := congrArg toNat hd
    rw [toNat_ofNat,toNat_ofNat,Nat.mod_eq_of_lt (hlt d),Nat.mod_eq_of_lt (hlt d')] at hd
    exact ⟨Fin.ext hd,he⟩
  · rintro ⟨rfl,rfl⟩
    rfl

theorem tipKey_ne_sub_one (d : Fin numDelegates) (e : BitVec 32) :
    tipKey d e ≠ tipKey d (e - 1) := by
  intro heq
  have := (tipKey_injective.mp heq).2
  bv_omega

section Firsts

variable {t : Table H (RequestBlock H σ)} {start : Fin numDelegates → H}
  {path : Fin numDelegates → List (RequestBlock H σ)}

/-- The iterator passes what the walk of each delegate does, if no walk leads to a missing block. -/
theorem batchBlocks_of_walk {link : RequestBlock H σ → H}
    {goOn : Fin numDelegates → H → RequestBlock H σ → Bool} {stop : Fin numDelegates → H}
    (hwalk : ∀ d,t.walk link (goOn d) (t.entries.length + 1) (start d) = some (path d,stop d))
    (hstop : ∀ d,t.lookup (stop d) = none → stop d = 0) (ds : List (Fin numDelegates)) :
    batchBlocks t link goOn start ds = some (ds.flatMap fun d => (path d).map (d,·)) := by
  induction ds with
  | nil => rfl
  | cons d ds ih =>
    rw [batchBlocks,hwalk,ih]
    exact if_neg fun h => h.2 (hstop d h.1)

/-- The iterator passes the whole chain of each delegate. -/
theorem batchBlocks_of_visits (hpath : ∀ d,t.Visits (·.previous) 0 (start d) (path d))
    (ds : List (Fin numDelegates)) :
    batchBlocks t (·.previous) (fun _ k _ => decide (k ≠ 0)) start ds =
      some (ds.flatMap fun d => (path d).map (d,·)) :=
  batchBlocks_of_walk (fun d => (hpath d).walk (fun _ _ => rfl)
    (Nat.lt_succ_of_le (hpath d).length_le)) (fun _ _ => rfl) ds

theorem filter_map_pair (d d' : Fin numDelegates) (c : RequestBlock H σ → Prop) [DecidablePred c]
    (l : List (RequestBlock H σ)) :
    (l.map (d',·)).filter (fun p => decide (p.1 = d ∧ c p.2)) =
      if d' = d then (l.filter fun b => decide (c b)).map (d,·) else [] := by
  split
  · next h =>
    subst h
    simp [List.filter_map,Function.comp_def]
  · next h => simp [List.filter_map,Function.comp_def,h]

theorem filter_flatMap_pair {ds : List (Fin numDelegates)} (hnodup : ds.Nodup)
    (d : Fin numDelegates) (c : RequestBlock H σ → Prop) [DecidablePred c] :
    (ds.flatMap fun d => (path d).map (d,·)).filter (fun p => decide (p.1 = d ∧ c p.2)) =
      if d ∈ ds then ((path d).filter fun b => decide (c b)).map (d,·) else [] := by
  induction ds with
  | nil => rfl
  | cons d' ds ih =>
    obtain ⟨hnot,hnodup⟩ := nodup_cons.mp hnodup
    rw [List.flatMap_cons,List.filter_append,ih hnodup,filter_map_pair]
    by_cases h : d' = d
    · subst h
      simp [hnot]
    · simp [h,Ne.symm h]

/-- The blocks of the current epoch come from one with none before it. -/
def Before (t : Table H (RequestBlock H σ)) (k k' : H) : Prop :=
  ∃ b,t.lookup k = some b ∧ b.previous = k'

theorem visits_of_before {k f : H} {b : RequestBlock H σ} (hzero : (0 : H) ∉ t)
    (hb : t.lookup f = some b) (hfirst : b.previous = 0)
    (h : Relation.ReflTransGen (Before t) k f) :
    ∃ vs,t.Visits (·.previous) 0 k (vs ++ [b]) ∧ ∀ v ∈ vs,v.previous ≠ 0 := by
  have hne : ∀ {k' : H} {v : RequestBlock H σ},t.lookup k' = some v → k' ≠ 0 := by
    rintro k' v hv rfl
    rw [lookup_eq_none.mpr hzero] at hv
    cases hv
  induction h using Relation.ReflTransGen.head_induction_on with
  | refl => exact ⟨[],⟨hne hb,hb,hfirst⟩,by simp⟩
  | head hstep hrest ih =>
    obtain ⟨v,hv,rfl⟩ := hstep
    obtain ⟨vs,hvisits,hprevious⟩ := ih
    have hv' : v.previous ≠ 0 := by
      cases vs with
      | nil => exact hvisits.1
      | cons w vs => exact hvisits.1
    refine ⟨v::vs,⟨hne hv,hv,hvisits⟩,fun w hw => ?_⟩
    rcases mem_cons.mp hw with rfl | hw
    · exact hv'
    · exact hprevious w hw

end Firsts

/-- Before the epoch block every delegate has a tip `T d` in the last epoch. One with a block in the
current epoch has a chain there, whose first block `f d` has none before it; otherwise `f d` is
zero. -/
structure Ready (e : BitVec 32) (T : Fin numDelegates → Tip H) (f : Fin numDelegates → H)
    (s : BlockStore H σ) : Prop where
  zero : (0 : H) ∉ s.requestBlocks
  prevTip : ∀ d,s.requestTips.lookup (tipKey d (e - 1)) = some (T d)
  idle : ∀ d,f d = 0 → s.requestTips.lookup (tipKey d e) = none
  begun : ∀ d,f d ≠ 0 → ∃ tip b,s.requestTips.lookup (tipKey d e) = some tip ∧
    Relation.ReflTransGen (Before s.requestBlocks) tip.digest (f d) ∧
    s.requestBlocks.lookup (f d) = some b ∧ b.previous = 0 ∧ slot b = tipKey d e ∧
    D.requestHash b = f d
  last : ∀ d,f d ≠ 0 → ∃ q,s.requestBlocks.lookup (T d).digest = some q ∧
    q.primaryDelegate = BitVec.ofNat 8 d ∧ q.epochNumber ≠ e

variable {d : Fin numDelegates}

section Effect

variable {D} {e : BitVec 32} {T : Fin numDelegates → Tip H} {f : Fin numDelegates → H}
  {s : BlockStore H σ}

/-- The chain of a delegate in the current epoch, and the one block in it with none before. -/
theorem Ready.visits (h : Ready D e T f s) (d : Fin numDelegates) :
    ∃ vs,s.requestBlocks.Visits (·.previous) 0 (s.tipDigest e d) vs ∧
      (f d = 0 → vs.filter (fun b => decide (b.previous = 0)) = []) ∧
      (f d ≠ 0 → ∃ b,vs.filter (fun b => decide (b.previous = 0)) = [b] ∧
        D.requestHash b = f d) := by
  unfold tipDigest
  by_cases hf : f d = 0
  · rw [h.idle d hf]
    exact ⟨[],rfl,fun _ => rfl,fun hne => absurd hf hne⟩
  · obtain ⟨tip,b,htip,hpath,hb,hprevious,-,hhash⟩ := h.begun d hf
    obtain ⟨vs,hvisits,hvs⟩ := visits_of_before h.zero hb hprevious hpath
    rw [htip]
    refine ⟨vs ++ [b],hvisits,fun hzero => absurd hzero hf,fun _ => ⟨b,?_,hhash⟩⟩
    have hnone : vs.filter (fun b => decide (b.previous = 0)) = [] :=
      List.filter_eq_nil_iff.mpr fun v hv => by simpa using hvs v hv
    simp [List.filter_append,hnone,hprevious]

theorem Ready.getEpochFirstRBs (h : Ready D e T f s) :
    ∃ firsts,s.getEpochFirstRBs D e = some firsts ∧ ∀ d,(firsts d).digest = f d := by
  choose path hpath hidle hbegun using h.visits
  refine ⟨fun d => ((((path d).filter fun b => decide (b.previous = 0)).map (d,·)).getLast?.map
    fun p => tipOf p.2 (D.requestHash p.2)).getD 0,?_,fun d => ?_⟩
  · unfold BlockStore.getEpochFirstRBs
    rw [batchBlocks_of_visits hpath]
    refine congrArg some (funext fun d => ?_)
    rw [filter_flatMap_pair (nodup_finRange _) d fun b => b.previous = 0,if_pos (mem_finRange d)]
  · by_cases hf : f d = 0
    · simp only [hidle d hf,hf]
      rfl
    · obtain ⟨b,hb,hhash⟩ := hbegun d hf
      simp only [hb]
      exact hhash

def relink (T : Fin numDelegates → Tip H) (f : Fin numDelegates → H) (k : H)
    (b : RequestBlock H σ) (d : Fin numDelegates) : RequestBlock H σ :=
  if f d = 0 then b
  else { b with
    previous := if k = f d then (T d).digest else b.previous
    next := if k = (T d).digest then f d else b.next }

def reTip (e : BitVec 32) (T : Fin numDelegates → Tip H) (f : Fin numDelegates → H)
    (key : BitVec 8 × BitVec 32) (tip : Option (Tip H)) (d : Fin numDelegates) : Option (Tip H) :=
  if key = tipKey d (e - 1) then none
  else if key = tipKey d e ∧ f d = 0 then some (T d)
  else tip

theorem rollOrLink_spec {first : Tip H} (hfirst : first.digest = f d)
    (hstored : f d ≠ 0 → f d ∈ s.requestBlocks ∧ (T d).digest ∈ s.requestBlocks) :
    ∃ s',s.rollOrLink d e (T d) first = some s' ∧
      (∀ k,s'.requestBlocks.lookup k = (s.requestBlocks.lookup k).map (relink T f k · d)) ∧
      (∀ key,s'.requestTips.lookup key =
        if key = tipKey d e ∧ f d = 0 then some (T d) else s.requestTips.lookup key) ∧
      s'.epochTip = s.epochTip := by
  unfold rollOrLink
  rw [hfirst]
  by_cases hf : f d = 0
  · rw [if_pos hf]
    refine ⟨_,rfl,fun k => ?_,fun key => ?_,rfl⟩
    · simp [relink,hf]
    · simp only [Table.lookup_insert_ite,hf,and_true]
  · rw [if_neg hf]
    obtain ⟨hmem,hmem'⟩ := hstored hf
    obtain ⟨t1,ht1⟩ := updateNext_eq_some_iff.mpr hmem'
    have hlookup1 := lookup_updateNext ht1
    have hmem1 : f d ∈ t1 := by
      rw [← lookup_isSome] at hmem ⊢
      rw [hlookup1]
      split
      · rwa [isSome_map]
      · exact hmem
    obtain ⟨t2,ht2⟩ := updatePrev_eq_some_iff.mpr hmem1
    refine ⟨{ s with requestBlocks := t2 },?_,fun k => ?_,fun key => ?_,rfl⟩
    · rw [ht1,bind_eq_bind,bind_some,ht2]
      rfl
    · rw [lookup_updatePrev ht2,hlookup1]
      cases s.requestBlocks.lookup k with
      | none => simp
      | some b =>
        simp only [relink,if_neg hf]
        split_ifs <;> rfl
    · simp [hf]

theorem linkAndUpdateTips_spec {first : Tip H} (hfirst : first.digest = f d)
    (htip : s.requestTips.lookup (tipKey d (e - 1)) = some (T d))
    (hstored : f d ≠ 0 → f d ∈ s.requestBlocks ∧ (T d).digest ∈ s.requestBlocks) :
    ∃ s',s.linkAndUpdateTips d e first = some s' ∧
      (∀ k,s'.requestBlocks.lookup k = (s.requestBlocks.lookup k).map (relink T f k · d)) ∧
      (∀ key,s'.requestTips.lookup key = reTip e T f key (s.requestTips.lookup key) d) ∧
      s'.epochTip = s.epochTip := by
  obtain ⟨s1,hs1,hblocks,htips,hepoch⟩ := rollOrLink_spec hfirst hstored
  refine ⟨{ s1 with requestTips := s1.requestTips.erase (tipKey d (e - 1)) },?_,hblocks,
    fun key => ?_,hepoch⟩
  · rw [linkAndUpdateTips,htip,bind_eq_bind,bind_some,hs1]
    rfl
  · rw [Table.lookup_erase_ite,htips,reTip]

/-- Linking delegates one after the other. -/
theorem linkAll (s0 : BlockStore H σ) {firsts : Fin numDelegates → Tip H}
    (hfirsts : ∀ d,(firsts d).digest = f d) {ds : List (Fin numDelegates)} (hnodup : ds.Nodup)
    (htips : ∀ d ∈ ds,s0.requestTips.lookup (tipKey d (e - 1)) = some (T d))
    (hstored : ∀ d ∈ ds,f d ≠ 0 → f d ∈ s0.requestBlocks ∧ (T d).digest ∈ s0.requestBlocks) :
    ∃ s',ds.foldlM (fun s d => s.linkAndUpdateTips d e (firsts d)) s0 = some s' ∧
      (∀ k,s'.requestBlocks.lookup k =
        (s0.requestBlocks.lookup k).map fun b => ds.foldl (relink T f k) b) ∧
      (∀ key,s'.requestTips.lookup key = ds.foldl (reTip e T f key) (s0.requestTips.lookup key)) ∧
      s'.epochTip = s0.epochTip := by
  induction ds generalizing s0 with
  | nil => exact ⟨s0,rfl,fun k => by simp,fun key => rfl,rfl⟩
  | cons d ds ih =>
    obtain ⟨hnot,hnodup⟩ := nodup_cons.mp hnodup
    obtain ⟨s1,hs1,hblocks1,htips1,hepoch1⟩ := linkAndUpdateTips_spec (hfirsts d)
      (htips d mem_cons_self) (hstored d mem_cons_self)
    have hkept : ∀ k,k ∈ s0.requestBlocks → k ∈ s1.requestBlocks := by
      intro k hk
      rw [← lookup_isSome] at hk ⊢
      rwa [hblocks1,isSome_map]
    have htips' : ∀ d' ∈ ds,s1.requestTips.lookup (tipKey d' (e - 1)) = some (T d') := by
      intro d' hd'
      have hne : d' ≠ d := fun heq => hnot (heq ▸ hd')
      rw [htips1,reTip,if_neg fun heq => hne (tipKey_injective.mp heq).1,
        if_neg fun heq => hne (tipKey_injective.mp heq.1).1]
      exact htips d' (mem_cons_of_mem _ hd')
    have hstored' : ∀ d' ∈ ds,f d' ≠ 0 →
        f d' ∈ s1.requestBlocks ∧ (T d').digest ∈ s1.requestBlocks := by
      intro d' hd' hf
      obtain ⟨hmem,hmem'⟩ := hstored d' (mem_cons_of_mem _ hd') hf
      exact ⟨hkept _ hmem,hkept _ hmem'⟩
    obtain ⟨s2,hs2,hblocks2,htips2,hepoch2⟩ := ih s1 hnodup htips' hstored'
    refine ⟨s2,?_,fun k => ?_,fun key => ?_,hepoch2.trans hepoch1⟩
    · rw [List.foldlM_cons,hs1]
      exact hs2
    · rw [hblocks2,hblocks1,map_map]
      rfl
    · rw [htips2,htips1]
      rfl

theorem foldl_eq_self {α β : Type} {g : β → α → β} {l : List α} (h : ∀ a ∈ l,∀ x,g x a = x)
    (x : β) : l.foldl g x = x := by
  induction l with
  | nil => rfl
  | cons a l ih =>
    rw [List.foldl_cons,h a mem_cons_self]
    exact ih fun b hb => h b (mem_cons_of_mem _ hb)

/-- A fold to which only one element of the list matters. -/
theorem foldl_eq_of_others {α β : Type} [DecidableEq α] {g : β → α → β} {a : α} {l : List α}
    (hnodup : l.Nodup) (ha : a ∈ l) (h : ∀ a' ∈ l,a' ≠ a → ∀ x,g x a' = x) (x : β) :
    l.foldl g x = g x a := by
  induction l generalizing x with
  | nil => cases ha
  | cons b l ih =>
    obtain ⟨hnot,hnodup⟩ := nodup_cons.mp hnodup
    rw [List.foldl_cons]
    by_cases hb : b = a
    · subst hb
      exact foldl_eq_self (fun a' ha' => h a' (mem_cons_of_mem _ ha')
        fun heq => hnot (heq ▸ ha')) _
    · rw [h b mem_cons_self hb]
      have ha' : a ∈ l := (mem_cons.mp ha).resolve_left fun heq => hb heq.symm
      exact ih hnodup ha' (fun a' ha' => h a' (mem_cons_of_mem _ ha')) x

/-- What the epoch block does to a store that is ready for it. -/
structure Joined (e : BitVec 32) (T : Fin numDelegates → Tip H) (f : Fin numDelegates → H)
    (s s' : BlockStore H σ) : Prop where
  blocks : ∀ k,s'.requestBlocks.lookup k =
    (s.requestBlocks.lookup k).map fun b => (List.finRange numDelegates).foldl (relink T f k) b
  tips : ∀ key,s'.requestTips.lookup key =
    (List.finRange numDelegates).foldl (reTip e T f key) (s.requestTips.lookup key)

theorem Ready.applyEpochBlock (h : Ready D e T f s) {eb : EpochBlock H σ}
    (hepoch : eb.epochNumber + 1 = e) (hgenesis : ¬eb.epochNumber ≤ genesisEpoch)
    (hnew : D.epochHash eb ∉ s.epochs) (hprevious : eb.previous ∈ s.epochs) :
    ∃ s',s.applyEpochBlock D eb = some s' ∧ Joined e T f s s' ∧
      s'.epochTip = some (tipOf eb (D.epochHash eb)) := by
  obtain ⟨firsts,hfirsts,hdigest⟩ := h.getEpochFirstRBs
  have hput : eb.previous ∈ s.epochs.insert (D.epochHash eb) eb :=
    (mem_insert _).mpr (.inr hprevious)
  obtain ⟨epochs,hepochs⟩ := updateNext_eq_some_iff.mpr hput
  have hstored : ∀ d,f d ≠ 0 → f d ∈ s.requestBlocks ∧ (T d).digest ∈ s.requestBlocks := by
    intro d hf
    obtain ⟨-,b,-,-,hb,-⟩ := h.begun d hf
    obtain ⟨q,hq,-⟩ := h.last d hf
    exact ⟨Table.mem_of_lookup hb,Table.mem_of_lookup hq⟩
  obtain ⟨s',hs',hblocks,htips,htip⟩ := linkAll
    { s with epochs := epochs,epochTip := some (tipOf eb (D.epochHash eb)) } hdigest
    (nodup_finRange numDelegates) (fun d _ => h.prevTip d) fun d _ => hstored d
  refine ⟨s',?_,⟨hblocks,htips⟩,htip⟩
  rw [BlockStore.applyEpochBlock,if_neg hnew,hepochs,bind_eq_bind,bind_some,
    if_neg hgenesis,hepoch,hfirsts]
  exact hs'

section Joined
variable {s' : BlockStore H σ} {k : H} {b : RequestBlock H σ} {d : Fin numDelegates}

/-- Linking another delegate does not touch a block. -/
theorem Ready.relink_of_ne (h : Ready D e T f s) (hb : s.requestBlocks.lookup k = some b)
    (hd : b.primaryDelegate ≠ ofNat 8 d) (x : RequestBlock H σ) : relink T f k x d = x := by
  unfold relink
  split
  · rfl
  · next hf =>
    have hfirst : k ≠ f d := by
      rintro rfl
      obtain ⟨-,b',-,-,hb',-,hslot,-⟩ := h.begun d hf
      rw [hb,some.injEq] at hb'
      exact hd (hb' ▸ congrArg fst hslot)
    have hlast : k ≠ (T d).digest := by
      rintro rfl
      obtain ⟨q,hq,hdelegate,-⟩ := h.last d hf
      rw [hb,some.injEq] at hq
      exact hd (hq ▸ hdelegate)
    simp only [if_neg hfirst,if_neg hlast]

theorem ofNat_ne {d' : Fin numDelegates} (hne : d' ≠ d) :
    (ofNat 8 d : BitVec 8) ≠ ofNat 8 d' := fun heq =>
  hne (tipKey_injective.mp (ext heq.symm rfl : tipKey d' 0 = tipKey d 0)).1

variable (hj : Joined e T f s s')
include hj

theorem Joined.lookup (h : Ready D e T f s)
    (hb : s.requestBlocks.lookup k = some b) (hd : b.primaryDelegate = ofNat 8 d) :
    s'.requestBlocks.lookup k = some (relink T f k b d) := by
  rw [hj.blocks,hb,map_some,foldl_eq_of_others (nodup_finRange _) (mem_finRange d)]
  intro d' _ hne x
  exact h.relink_of_ne hb (hd ▸ ofNat_ne hne) x

theorem Joined.lookup_other (h : Ready D e T f s) (hb : s.requestBlocks.lookup k = some b)
    (hd : ∀ d : Fin numDelegates,b.primaryDelegate ≠ ofNat 8 d) :
    s'.requestBlocks.lookup k = some b := by
  rw [hj.blocks,hb,map_some,foldl_eq_self fun d _ x => h.relink_of_ne hb (hd d) x]

theorem Joined.lookup_none (hb : s.requestBlocks.lookup k = none) :
    s'.requestBlocks.lookup k = none := by
  rw [hj.blocks,hb,map_none]

theorem Joined.tip (e' : BitVec 32) : s'.requestTips.lookup (tipKey d e') =
      reTip e T f (tipKey d e') (s.requestTips.lookup (tipKey d e')) d := by
  rw [hj.tips,foldl_eq_of_others (nodup_finRange _) (mem_finRange d)]
  intro d' _ hne x
  rw [reTip,if_neg fun heq => hne (tipKey_injective.mp heq).1.symm,
    if_neg fun heq => hne (tipKey_injective.mp heq.1).1.symm]

theorem Joined.tip_other {key : BitVec 8 × BitVec 32}
    (hkey : ∀ d : Fin numDelegates,key.1 ≠ ofNat 8 d) :
    s'.requestTips.lookup key = s.requestTips.lookup key := by
  rw [hj.tips,foldl_eq_self]
  intro d _ x
  rw [reTip,if_neg fun heq => hkey d (congrArg fst heq),
    if_neg fun heq => hkey d (congrArg fst heq.1)]

omit hj

/-- After the epoch block: the first block of the new epoch is linked with the last one before,
other tips stand for the new epoch, and none is left in the old one. -/
structure Bridged (e : BitVec 32) (T : Fin numDelegates → Tip H) (f : Fin numDelegates → H)
    (s : BlockStore H σ) : Prop where
  forward : ∀ d,f d ≠ 0 → ∃ q ∈ s.requestBlocks.lookup (T d).digest,q.next = f d
  backward : ∀ d,f d ≠ 0 → ∃ b ∈ s.requestBlocks.lookup (f d),b.previous = (T d).digest
  rolled : ∀ d,f d = 0 → s.requestTips.lookup (tipKey d e) = some (T d)
  old : ∀ d,s.requestTips.lookup (tipKey d (e - 1)) = none

theorem Joined.bridged (hj : Joined e T f s s') (h : Ready D e T f s) : Bridged e T f s' := by
  refine ⟨fun d hf => ?_,fun d hf => ?_,fun d hf => ?_,fun d => ?_⟩
  · obtain ⟨q,hq,hdelegate,-⟩ := h.last d hf
    refine ⟨_,hj.lookup h hq hdelegate,?_⟩
    simp [relink,hf]
  · obtain ⟨-,b,-,-,hb,-,hslot,-⟩ := h.begun d hf
    refine ⟨_,hj.lookup h hb (congrArg fst hslot),?_⟩
    simp [relink,hf]
  · rw [hj.tip,reTip,if_neg (tipKey_ne_sub_one d e),if_pos ⟨rfl,hf⟩]
  · rw [hj.tip,reTip,if_pos rfl]

end Joined

end Effect

/-- The next request block: the first of its delegate names no block and finds the tip of the last
epoch stored, every other follows the current tip. -/
structure Next (e : BitVec 32) (T : Fin numDelegates → Tip H) (s : BlockStore H σ)
    (m : RequestBlock H σ) : Prop where
  epoch : m.epochNumber = e
  delegate : ∃ d : Fin numDelegates,m.primaryDelegate = BitVec.ofNat 8 d
  fresh : D.requestHash m ∉ s.requestBlocks
  hash : D.requestHash m ≠ 0
  first : m.sequence = 0 → m.previous = 0 ∧ s.requestTips.lookup (slot m) = none ∧
    ∀ d : Fin numDelegates,m.primaryDelegate = BitVec.ofNat 8 d →
      ∃ q ∈ s.requestBlocks.lookup (T d).digest,q.primaryDelegate = m.primaryDelegate ∧
        q.epochNumber ≠ e
  later : m.sequence ≠ 0 → Succeeds s m

structure Agree (s t : BlockStore H σ) : Prop where
  blocks : ∀ k,s.requestBlocks.lookup k = t.requestBlocks.lookup k
  tips : ∀ key,s.requestTips.lookup key = t.requestTips.lookup key
  epochTip : s.epochTip = t.epochTip

section Commute

variable {D} {e : BitVec 32} {T : Fin numDelegates → Tip H} {f : Fin numDelegates → H}
  {s : BlockStore H σ} {m : RequestBlock H σ} {tip : Tip H} {k : H} {b : RequestBlock H σ}

/-- A first block is stored behind nothing as long as the epoch block is missing. -/
theorem Next.predecessor_first (hm : Next D e T s m) (hseq : m.sequence = 0)
    (htip : s.epochTip = some tip) (hepoch : tip.epoch + 1 ≠ e) :
    s.predecessor m = some (0,false) := by
  have hplain : (some (m.previous,decide (m.previous ≠ 0)) : Option (H × Bool)) = some (0,false) := by
    rw [(hm.first hseq).1]
    simp
  unfold BlockStore.predecessor
  split
  · rw [htip,bind_some,if_neg (by rw [hm.epoch]; exact hepoch)]
    exact hplain
  · exact hplain

theorem Ready.first_eq_zero (h : Ready D e T f s)
    (htip : s.requestTips.lookup (tipKey d e) = none) : f d = 0 := by
  by_contra hf
  obtain ⟨tip,-,htip',-⟩ := h.begun d hf
  rw [htip] at htip'
  cases htip'

theorem Ready.first_ne_zero (h : Ready D e T f s)
    (htip : s.requestTips.lookup (tipKey d e) = some tip) : f d ≠ 0 := by
  intro hf
  rw [h.idle d hf] at htip
  cases htip

def started (f : Fin numDelegates → H) (m : RequestBlock H σ) (hash : H) (d : Fin numDelegates) : H :=
  if m.sequence = 0 ∧ m.primaryDelegate = BitVec.ofNat 8 d then hash else f d

theorem started_of_first {hash : H} (hseq : m.sequence = 0)
    (hd : m.primaryDelegate = ofNat 8 d) : started f m hash d = hash :=
  if_pos ⟨hseq,hd⟩

theorem started_of_later {hash : H} (hseq : m.sequence ≠ 0) : started f m hash d = f d :=
  if_neg fun hstart => hseq hstart.1

theorem started_of_ne {hash : H} {d d' : Fin numDelegates}
    (hd : m.primaryDelegate = ofNat 8 d) (hne : d' ≠ d) : started f m hash d' = f d' :=
  if_neg fun hstart => ofNat_ne hne (hd.symm.trans hstart.2)

structure Placed (s s1 : BlockStore H σ) (m : RequestBlock H σ) (hash p : H) (linked : Bool) :
    Prop where
  stored : StoredBehind s s1 m hash p linked
  first : m.sequence = 0 → p = 0 ∧ linked = false
  later : m.sequence ≠ 0 → p = m.previous ∧ linked = true

theorem Succeeds.previous_mem (h : Succeeds s m) : m.previous ∈ s.requestBlocks := by
  obtain ⟨p,hp,-⟩ := h
  exact Table.mem_of_lookup hp

/-- A new block whose predecessor is there is stored behind it. -/
theorem applyRequestBlock_behind {p : H} {linked : Bool}
    (hfresh : D.requestHash m ∉ s.requestBlocks)
    (hpred : s.predecessor m = some (p,linked)) (hmem : linked = true → p ∈ s.requestBlocks) :
    ∃ s1,s.applyRequestBlock D m = some s1 ∧ StoredBehind s s1 m (D.requestHash m) p linked := by
  rw [applyRequestBlock,if_neg hfresh]
  obtain ⟨s1,hs1⟩ := storeRequestBlock_of_present D hpred hmem
  have hself : s.predecessor m ≠ some (D.requestHash m,true) := by
    rw [hpred]
    intro heq
    obtain ⟨rfl,rfl⟩ := Prod.mk.inj (some.inj heq)
    exact hfresh (hmem rfl)
  obtain ⟨p',linked',hpred',hstored⟩ := storeRequestBlock_spec D hself hs1
  obtain ⟨rfl,rfl⟩ := Prod.mk.inj (some.inj (hpred.symm.trans hpred'))
  exact ⟨s1,hs1,hstored⟩

theorem Next.place (hm : Next D e T s m) (h : Ready D e T f s) (htip : s.epochTip = some tip)
    (hepoch : tip.epoch + 1 ≠ e) :
    ∃ s1 p linked,s.applyRequestBlock D m = some s1 ∧ Placed s s1 m (D.requestHash m) p linked := by
  by_cases hseq : m.sequence = 0
  · obtain ⟨s1,hs1,hstored⟩ := applyRequestBlock_behind hm.fresh
      (hm.predecessor_first hseq htip hepoch) (by simp)
    exact ⟨s1,0,false,hs1,hstored,fun _ => ⟨rfl,rfl⟩,fun hne => absurd hseq hne⟩
  · have hmem := (hm.later hseq).previous_mem
    have hprevious : m.previous ≠ 0 := fun heq => h.zero (heq ▸ hmem)
    have hpred : s.predecessor m = some (m.previous,true) := by
      rw [predecessor_of_not_first hseq,decide_eq_true hprevious]
    obtain ⟨s1,hs1,hstored⟩ := applyRequestBlock_behind hm.fresh hpred fun _ => hmem
    exact ⟨s1,m.previous,true,hs1,hstored,fun hzero => absurd hzero hseq,fun _ => ⟨rfl,rfl⟩⟩

section Stored
variable {s1 : BlockStore H σ} {p : H} {linked : Bool}

theorem BlockStore.StoredBehind.before (hs : StoredBehind s s1 m (D.requestHash m) p linked)
    (hfresh : D.requestHash m ∉ s.requestBlocks) {k' : H}
    (hpath : Relation.ReflTransGen (Before s.requestBlocks) k k') :
    Relation.ReflTransGen (Before s1.requestBlocks) k k' := by
  refine hpath.lift id fun k k' hstep => ?_
  obtain ⟨b,hb,hprevious⟩ := hstep
  obtain ⟨-,b',hb',hheader,-⟩ := hs.kept hfresh hb
  exact ⟨b',hb',by rw [hheader]; exact hprevious⟩

omit [DecidableEq H] in
theorem requestHash_congr {b' : RequestBlock H σ} (h : b.toConsensusBlock = b'.toConsensusBlock) :
    D.requestHash b = D.requestHash b' := by
  simp only [Digests.requestHash,h]

/-- The store stays ready for the epoch block. -/
theorem Ready.store (h : Ready D e T f s) (hm : Next D e T s m)
    (hplaced : Placed s s1 m (D.requestHash m) p linked) :
    Ready D e T (started f m (D.requestHash m)) s1 := by
  have hs := hplaced.stored
  obtain ⟨d,hd⟩ := hm.delegate
  have hslot : slot m = tipKey d e := ext hd hm.epoch
  have htips : ∀ d' e',(d',e') ≠ (d,e) →
      s1.requestTips.lookup (tipKey d' e') = s.requestTips.lookup (tipKey d' e') := by
    intro d' e' hne
    rw [hs.tips,Table.lookup_insert_ite,hslot,if_neg]
    intro heq
    obtain ⟨rfl,rfl⟩ := tipKey_injective.mp heq
    exact hne rfl
  have hown : s1.requestTips.lookup (tipKey d e) = some (tipOf m (D.requestHash m)) := by
    rw [hs.tips,hslot,AList.lookup_insert]
  have hne : started f m (D.requestHash m) d ≠ 0 := by
    unfold started
    split
    · exact hm.hash
    · next hlater =>
      obtain ⟨q,-,-,-,htip⟩ := hm.later fun hseq => hlater ⟨hseq,hd⟩
      exact h.first_ne_zero (hslot ▸ htip)
  refine ⟨?_,fun d' => ?_,fun d' hf => ?_,fun d' hf => ?_,fun d' hf => ?_⟩
  · intro hmem
    obtain ⟨b,hb⟩ := isSome_iff_exists.mp (lookup_isSome.mpr hmem)
    rcases hs.cases hb with ⟨heq,-⟩ | ⟨-,b0,hb0,-⟩
    · exact hm.hash heq.symm
    · exact h.zero (Table.mem_of_lookup hb0)
  · rw [htips _ _ fun heq => ?_]
    · exact h.prevTip d'
    · have := (Prod.mk.inj heq).2
      bv_omega
  · have hd' : d' ≠ d := by
      rintro rfl
      exact hne hf
    rw [htips _ _ fun heq => hd' (Prod.mk.inj heq).1]
    exact h.idle d' ((started_of_ne hd hd').symm.trans hf)
  · by_cases hd' : d' = d
    · subst hd'
      by_cases hseq : m.sequence = 0
      · rw [started_of_first hseq hd]
        exact ⟨_,_,hown,.refl,hs.lookup_new,(hplaced.first hseq).1,hslot,
          D.requestHash_first hseq _ _⟩
      · rw [started_of_later hseq] at hf ⊢
        obtain ⟨tip,b,htip,hpath,hb,hprevious,hslot',hhash⟩ := h.begun d' hf
        obtain ⟨-,b',hb',hheader,-⟩ := hs.kept hm.fresh hb
        obtain ⟨q,-,-,-,htip'⟩ := hm.later hseq
        rw [hslot,htip,some.injEq] at htip'
        have hstep : Before s1.requestBlocks (D.requestHash m) tip.digest :=
          ⟨_,hs.lookup_new,(hplaced.later hseq).1.trans (congrArg Tip.digest htip').symm⟩
        exact ⟨_,b',hown,.head hstep (hs.before hm.fresh hpath),hb',by rw [hheader]; exact hprevious,
          (slot_congr hheader).trans hslot',(requestHash_congr hheader).trans hhash⟩
    · rw [started_of_ne hd hd'] at hf ⊢
      obtain ⟨tip,b,htip,hpath,hb,hprevious,hslot',hhash⟩ := h.begun d' hf
      obtain ⟨-,b',hb',hheader,-⟩ := hs.kept hm.fresh hb
      refine ⟨tip,b',?_,hs.before hm.fresh hpath,hb',?_,(slot_congr hheader).trans hslot',
        (requestHash_congr hheader).trans hhash⟩
      · rw [htips _ _ fun heq => hd' (Prod.mk.inj heq).1]
        exact htip
      · rw [hheader]
        exact hprevious
  · have hlast : ∃ q ∈ s.requestBlocks.lookup (T d').digest,
        q.primaryDelegate = ofNat 8 d' ∧ q.epochNumber ≠ e := by
      unfold started at hf
      split at hf
      · next hstart =>
        obtain ⟨q,hq,hdelegate,hepoch⟩ := (hm.first hstart.1).2.2 d' hstart.2
        exact ⟨q,hq,hdelegate.trans hstart.2,hepoch⟩
      · exact h.last d' hf
    obtain ⟨q,hq,hdelegate,hepoch⟩ := hlast
    obtain ⟨-,q',hq',hheader,-⟩ := hs.kept hm.fresh hq
    exact ⟨q',hq',by rw [hheader]; exact hdelegate,by rw [hheader]; exact hepoch⟩

end Stored

/-- Where the next block goes after the epoch block is there. -/
theorem Next.place_joined (hm : Next D e T s m) (h : Ready D e T f s) {s2 : BlockStore H σ}
    (hj : Joined e T f s s2) (htip : s2.epochTip = some tip) (hepoch : tip.epoch + 1 = e)
    (hgenesis : genesisEpoch + 1 < e) (hd : m.primaryDelegate = ofNat 8 d) :
    ∃ s4 p,s2.applyRequestBlock D m = some s4 ∧ StoredBehind s2 s4 m (D.requestHash m) p true ∧
      (m.sequence = 0 → p = (T d).digest) ∧ (m.sequence ≠ 0 → p = m.previous) := by
  have hfresh : D.requestHash m ∉ s2.requestBlocks := by
    rw [← lookup_eq_none]
    exact hj.lookup_none (lookup_eq_none.mpr hm.fresh)
  have hmem : ∀ k,k ∈ s.requestBlocks → k ∈ s2.requestBlocks := by
    intro k hk
    rw [← lookup_isSome] at hk ⊢
    rwa [hj.blocks,isSome_map]
  have hslot : slot m = tipKey d e := ext hd hm.epoch
  by_cases hseq : m.sequence = 0
  · obtain ⟨-,hnone,hlast⟩ := hm.first hseq
    obtain ⟨q,hq,-⟩ := hlast d hd
    rw [hslot] at hnone
    have hcur : s2.requestTips.lookup (slot m) = some (T d) := by
      rw [hslot,hj.tip,reTip,if_neg (tipKey_ne_sub_one d e),if_pos ⟨rfl,h.first_eq_zero hnone⟩]
    have hpred : s2.predecessor m = some ((T d).digest,true) := by
      rw [BlockStore.predecessor,if_pos ⟨hseq,by rw [hm.epoch]; exact hgenesis⟩,htip,
        bind_some,if_pos (by rw [hm.epoch]; exact hepoch),hcur]
      rfl
    obtain ⟨s4,hs4,hstored⟩ := applyRequestBlock_behind hfresh hpred fun _ =>
      hmem _ (Table.mem_of_lookup hq)
    exact ⟨s4,_,hs4,hstored,fun _ => rfl,fun hne => absurd hseq hne⟩
  · have hprevious := (hm.later hseq).previous_mem
    have hne : m.previous ≠ 0 := fun heq => h.zero (heq ▸ hprevious)
    have hpred : s2.predecessor m = some (m.previous,true) := by
      rw [predecessor_of_not_first hseq,decide_eq_true hne]
    obtain ⟨s4,hs4,hstored⟩ := applyRequestBlock_behind hfresh hpred fun _ => hmem _ hprevious
    exact ⟨s4,_,hs4,hstored,fun hzero => absurd hzero hseq,fun _ => rfl⟩

section Square
variable {s1 s2 s3 s4 : BlockStore H σ} {p p2 : H} {linked : Bool} {d : Fin numDelegates}
  (h : Ready D e T f s) (hm : Next D e T s m) (hd : m.primaryDelegate = BitVec.ofNat 8 d)
  (hplaced : Placed s s1 m (D.requestHash m) p linked)
  (hj : Joined e T f s s2) (hj1 : Joined e T (started f m (D.requestHash m)) s1 s3)
  (hs4 : StoredBehind s2 s4 m (D.requestHash m) p2 true)
  (hfirst : m.sequence = 0 → p2 = (T d).digest) (hlater : m.sequence ≠ 0 → p2 = m.previous)
include h hm hd hplaced hj hj1 hs4 hfirst hlater

theorem lookup_new_comm :
    s3.requestBlocks.lookup (D.requestHash m) = s4.requestBlocks.lookup (D.requestHash m) := by
  have hready := h.store hm hplaced
  rw [hs4.lookup_new,hj1.lookup hready hplaced.stored.lookup_new hd]
  have hne : ∀ {k},k ∈ s.requestBlocks → D.requestHash m ≠ k := by
    rintro k hk rfl
    exact hm.fresh hk
  by_cases hseq : m.sequence = 0
  · obtain ⟨q,hq,-⟩ := (hm.first hseq).2.2 d hd
    have hlast : D.requestHash m ≠ (T d).digest :=
      hne (Table.mem_of_lookup hq)
    simp only [relink,started_of_first hseq hd,if_neg hm.hash,if_neg hlast,↓reduceIte,hfirst hseq]
  · obtain ⟨q,-,-,-,htip⟩ := hm.later hseq
    have hslot : slot m = tipKey d e := ext hd hm.epoch
    have hf : f d ≠ 0 := h.first_ne_zero (hslot ▸ htip)
    obtain ⟨-,b,-,-,hb,-⟩ := h.begun d hf
    obtain ⟨q',hq',-⟩ := h.last d hf
    have hfirst' : D.requestHash m ≠ f d := hne (Table.mem_of_lookup hb)
    have hlast : D.requestHash m ≠ (T d).digest := hne (Table.mem_of_lookup hq')
    simp only [relink,started_of_later hseq,if_neg hf,if_neg hfirst',if_neg hlast,hlater hseq,
      (hplaced.later hseq).1]

theorem lookup_own_comm (hb : s.requestBlocks.lookup k = some b)
    (hdelegate : b.primaryDelegate = ofNat 8 d) :
    s3.requestBlocks.lookup k = s4.requestBlocks.lookup k := by
  have hready := h.store hm hplaced
  obtain ⟨hk,b1,hb1,hheader,hnext⟩ := hplaced.stored.kept hm.fresh hb
  rw [hj1.lookup hready hb1 (by rw [hheader]; exact hdelegate),hs4.lookup,if_neg hk,
    hj.lookup h hb hdelegate]
  have hb1' : b1 = { b with next := if k = p ∧ linked = true then D.requestHash m else b.next } := by
    cases b1
    cases hheader
    cases hnext
    rfl
  have hslot : slot m = tipKey d e := ext hd hm.epoch
  by_cases hseq : m.sequence = 0
  · have hf : f d = 0 := h.first_eq_zero (hslot ▸ (hm.first hseq).2.1)
    simp only [hb1',(hplaced.first hseq).2,relink,started_of_first hseq hd,if_neg hm.hash,if_neg hk,
      hf,↓reduceIte,hfirst hseq,and_true,Bool.false_eq_true,and_false,map_some]
    split_ifs <;> rfl
  · obtain ⟨q,hq,hqslot,-,htip⟩ := hm.later hseq
    have hf : f d ≠ 0 := h.first_ne_zero (hslot ▸ htip)
    -- the block before the new one is of this epoch, that of the last tip is not
    have hprevious : m.previous ≠ (T d).digest := by
      intro heq
      obtain ⟨q',hq',-,hepoch⟩ := h.last d hf
      rw [← heq,mem_def.mp hq,some.injEq] at hq'
      exact hepoch (hq' ▸ (congrArg snd hqslot).trans hm.epoch)
    obtain ⟨rfl,rfl⟩ := hplaced.later hseq
    simp only [hb1',relink,started_of_later hseq,if_neg hf,hlater hseq,and_true,map_some]
    by_cases hkp : k = m.previous
    · simp only [hkp,if_neg hprevious,↓reduceIte]
    · simp only [if_neg hkp]

theorem lookup_other_comm (hb : s.requestBlocks.lookup k = some b)
    (hdelegate : b.primaryDelegate ≠ ofNat 8 d) :
    s3.requestBlocks.lookup k = s4.requestBlocks.lookup k := by
  have hready := h.store hm hplaced
  obtain ⟨hk,b1,hb1,hheader,hnext⟩ := hplaced.stored.kept hm.fresh hb
  -- the new block is put behind one of its own delegate
  have hbehind : ∀ {k' : H} {q : RequestBlock H σ},s.requestBlocks.lookup k' = some q →
      q.primaryDelegate = ofNat 8 d → k ≠ k' := by
    rintro k' q hq hown rfl
    rw [hb,some.injEq] at hq
    exact hdelegate (hq ▸ hown)
  have hbefore : ¬(k = p ∧ linked = true) := by
    rintro ⟨hkp,hlinked⟩
    by_cases hseq : m.sequence = 0
    · rw [(hplaced.first hseq).2] at hlinked
      cases hlinked
    · obtain ⟨q,hq,hqslot,-⟩ := hm.later hseq
      refine hbehind hq ((congrArg fst hqslot).trans hd) ?_
      rw [hkp,(hplaced.later hseq).1]
  have hafter : ¬(k = p2 ∧ true = true) := by
    rintro ⟨hkp,-⟩
    by_cases hseq : m.sequence = 0
    · obtain ⟨q,hq,hown,-⟩ := (hm.first hseq).2.2 d hd
      exact hbehind hq (hown.trans hd) (hkp.trans (hfirst hseq))
    · obtain ⟨q,hq,hqslot,-⟩ := hm.later hseq
      exact hbehind hq ((congrArg fst hqslot).trans hd) (hkp.trans (hlater hseq))
  rw [if_neg hbefore] at hnext
  obtain rfl : b1 = b := by
    cases b1
    cases hheader
    cases hnext
    rfl
  rw [hs4.lookup,if_neg hk,if_neg hafter]
  by_cases hd' : ∃ d' : Fin numDelegates,b1.primaryDelegate = ofNat 8 d'
  · obtain ⟨d',hd'⟩ := hd'
    have hne : d' ≠ d := fun heq => hdelegate (heq ▸ hd')
    rw [hj1.lookup hready hb1 hd',hj.lookup h hb hd']
    simp only [relink,started_of_ne hd hne]
  · push Not at hd'
    rw [hj1.lookup_other hready hb1 hd',hj.lookup_other h hb hd']

theorem tips_comm (key : BitVec 8 × BitVec 32) :
    s3.requestTips.lookup key = s4.requestTips.lookup key := by
  have hslot : slot m = tipKey d e := ext hd hm.epoch
  have hready := h.store hm hplaced
  rw [hs4.tips,Table.lookup_insert_ite,hslot]
  by_cases hd' : ∃ d' : Fin numDelegates,key.1 = ofNat 8 d'
  · obtain ⟨d',hd'⟩ := hd'
    obtain ⟨e',rfl⟩ : ∃ e',key = tipKey d' e' := ⟨key.2,ext hd' rfl⟩
    rw [hj1.tip,hj.tip,hplaced.stored.tips,Table.lookup_insert_ite,hslot]
    by_cases hkey : tipKey d' e' = tipKey d e
    · obtain ⟨rfl,rfl⟩ := tipKey_injective.mp hkey
      have htip : s1.requestTips.lookup (tipKey d' e') = some (tipOf m (D.requestHash m)) := by
        rw [hplaced.stored.tips,hslot,AList.lookup_insert]
      rw [if_pos rfl,if_pos rfl,reTip,if_neg (tipKey_ne_sub_one d' e'),
        if_neg fun hidle => hready.first_ne_zero htip hidle.2]
    · rw [if_neg hkey,if_neg hkey]
      have hstarted : tipKey d' e' = tipKey d' e → started f m (D.requestHash m) d' = f d' := by
        intro heq
        rw [started,if_neg]
        rintro ⟨-,hown⟩
        refine hkey (heq.trans ?_)
        rw [hd] at hown
        exact ext hown.symm rfl
      unfold reTip
      by_cases heq : tipKey d' e' = tipKey d' e
      · rw [hstarted heq]
      · simp only [heq,false_and]
  · push Not at hd'
    rw [hj1.tip_other hd',hj.tip_other hd',hplaced.stored.tips,Table.lookup_insert_ite,hslot]

/-- The epoch block and a request block may be stored in either order. -/
theorem square (htip : s3.epochTip = s2.epochTip) : Agree s3 s4 := by
  refine ⟨fun k => ?_,tips_comm h hm hd hplaced hj hj1 hs4 hfirst hlater,?_⟩
  · by_cases hk : k = D.requestHash m
    · rw [hk]
      exact lookup_new_comm h hm hd hplaced hj hj1 hs4 hfirst hlater
    · cases hb : s.requestBlocks.lookup k with
      | none =>
        rw [hs4.lookup,if_neg hk,hj.lookup_none hb,map_none,ite_self]
        refine hj1.lookup_none ?_
        rw [hplaced.stored.lookup,if_neg hk,hb,map_none,ite_self]
      | some b =>
        by_cases hdelegate : b.primaryDelegate = ofNat 8 d
        · exact lookup_own_comm h hm hd hplaced hj hj1 hs4 hfirst hlater hb hdelegate
        · exact lookup_other_comm h hm hd hplaced hj hj1 hs4 hfirst hlater hb hdelegate
  · rw [htip,hs4.epochTip]

end Square

section Congruence
variable {t : BlockStore H σ}

theorem updateNext_congr {u v u' : Table H (RequestBlock H σ)} {hash next : H}
    (h : ∀ k,u.lookup k = v.lookup k) (hu : updateNext u hash next = some u') :
    ∃ v',updateNext v hash next = some v' ∧ ∀ k,u'.lookup k = v'.lookup k := by
  have hmem : hash ∈ v := by
    have := updateNext_eq_some_iff.mp ⟨_,hu⟩
    rwa [← lookup_isSome,h,lookup_isSome] at this
  obtain ⟨v',hv'⟩ := updateNext_eq_some_iff.mpr hmem
  exact ⟨v',hv',fun k => by rw [lookup_updateNext hu,lookup_updateNext hv',h]⟩

theorem Agree.linkFirst (h : Agree s t) {r : BlockStore H σ × RequestBlock H σ}
    (hr : s.linkFirst D m = some r) :
    ∃ r',t.linkFirst D m = some r' ∧ Agree r.1 r'.1 ∧ r.2 = r'.2 := by
  unfold BlockStore.linkFirst at hr ⊢
  split at hr
  · next hfirst =>
    rw [if_pos hfirst]
    obtain ⟨stored,hstored,hr⟩ := bind_eq_some_iff.mp hr
    rw [← h.epochTip,hstored,bind_eq_bind,bind_some]
    split at hr
    · next hepoch =>
      rw [if_pos hepoch]
      obtain ⟨tip,htip,hr⟩ := bind_eq_some_iff.mp hr
      obtain ⟨blocks,hblocks,hr⟩ := bind_eq_some_iff.mp hr
      obtain ⟨blocks',hblocks',hlookup⟩ := updateNext_congr h.blocks hblocks
      obtain rfl := some.inj hr
      rw [← h.tips,htip,bind_some,hblocks']
      exact ⟨_,rfl,⟨hlookup,h.tips,hstored⟩,rfl⟩
    · next hepoch =>
      rw [if_neg hepoch]
      obtain rfl := some.inj hr
      exact ⟨_,rfl,h,rfl⟩
  · next hfirst =>
    rw [if_neg hfirst]
    obtain rfl := some.inj hr
    exact ⟨_,rfl,h,rfl⟩

theorem Agree.putRequestBlock (h : Agree s t) (d : BitVec 8) :
    Agree (s.putRequestBlock D m d) (t.putRequestBlock D m d) := by
  refine ⟨fun k => ?_,fun key => ?_,h.epochTip⟩
  · simp only [BlockStore.putRequestBlock,Table.lookup_insert_ite,h.blocks]
  · simp only [BlockStore.putRequestBlock,Table.lookup_insert_ite,h.tips]

/-- Stores that agree still do after the same request block. -/
theorem Agree.applyRequestBlock (h : Agree s t) {s' : BlockStore H σ}
    (hs : s.applyRequestBlock D m = some s') :
    ∃ t',t.applyRequestBlock D m = some t' ∧ Agree s' t' := by
  have hmem : D.requestHash m ∈ s.requestBlocks ↔ D.requestHash m ∈ t.requestBlocks := by
    rw [← lookup_isSome,h.blocks,lookup_isSome]
  unfold BlockStore.applyRequestBlock at hs ⊢
  split at hs
  · next hthere =>
    rw [if_pos (hmem.mp hthere)]
    obtain rfl := some.inj hs
    exact ⟨t,rfl,h⟩
  · next hnew =>
    rw [if_neg fun hthere => hnew (hmem.mpr hthere)]
    obtain ⟨r,hr,hs⟩ := bind_eq_some_iff.mp hs
    obtain ⟨r',hr',hagree,hblock⟩ := h.linkFirst hr
    rw [storeRequestBlock,hr',bind_eq_bind,bind_some,← hblock]
    have hput := hagree.putRequestBlock (m := r.2) (D := D) m.primaryDelegate
    split at hs
    · next hprevious =>
      rw [if_pos hprevious]
      obtain ⟨blocks,hblocks,hs⟩ := bind_eq_some_iff.mp hs
      obtain ⟨blocks',hblocks',hlookup⟩ := updateNext_congr hput.blocks hblocks
      obtain rfl := some.inj hs
      rw [hblocks']
      exact ⟨_,rfl,hlookup,hput.tips,hput.epochTip⟩
    · next hprevious =>
      rw [if_neg hprevious]
      obtain rfl := some.inj hs
      exact ⟨_,rfl,hput⟩

end Congruence

end Commute

section Run

inductive Write (H σ : Type)
  | request (m : RequestBlock H σ)
  | epoch (eb : EpochBlock H σ)

def BlockStore.write (s : BlockStore H σ) : Write H σ → Option (BlockStore H σ × List Empty)
  | .request m => (s.applyRequestBlock D m).map (·,[])
  | .epoch eb => (s.applyEpochBlock D eb).map (·,[])

def NextWrite (e : BitVec 32) (T : Fin numDelegates → Tip H) (s : BlockStore H σ) :
    Write H σ → Prop
  | .request m => Next D e T s m
  | .epoch _ => True

variable {D} {e : BitVec 32} {T : Fin numDelegates → Tip H} {f : Fin numDelegates → H}
  {s : BlockStore H σ}

theorem write_request {m : RequestBlock H σ} {s' : BlockStore H σ}
    (h : s.applyRequestBlock D m = some s') : s.write D (.request m) = some (s',[]) := by
  rw [BlockStore.write,h]
  rfl

theorem write_epoch {eb : EpochBlock H σ} {s' : BlockStore H σ}
    (h : s.applyEpochBlock D eb = some s') : s.write D (.epoch eb) = some (s',[]) := by
  rw [BlockStore.write,h]
  rfl

theorem Agree.exec {t s' : BlockStore H σ} {o : List Empty} {ms : List (RequestBlock H σ)}
    (h : Agree s t) (hs : exec (BlockStore.write D) s (ms.map .request) = some (s',o)) :
    ∃ t',exec (BlockStore.write D) t (ms.map .request) = some (t',o) ∧ Agree s' t' := by
  induction ms generalizing s t o with
  | nil =>
    cases hs
    exact ⟨t,rfl,h⟩
  | cons m ms ih =>
    obtain ⟨s1,o1,o2,hstep,hrest,rfl⟩ := Machine.exec_cons_eq_some hs
    obtain ⟨s2,hs2,heq⟩ := map_eq_some_iff.mp hstep
    obtain ⟨rfl,rfl⟩ := Prod.mk.inj heq
    obtain ⟨t2,ht2,hagree⟩ := h.applyRequestBlock hs2
    obtain ⟨t',ht',hagree'⟩ := ih hagree hrest
    refine ⟨t',?_,hagree'⟩
    rw [map_cons,exec_cons_of_step (write_request ht2),ht']
    rfl

/-- Wherever the epoch block comes among the request blocks, nothing halts and the links and tips in
the end are those that it makes after all of them. -/
theorem exec_epochBlock_anywhere (h : Ready D e T f s) {eb : EpochBlock H σ} {tip : Tip H}
    {ms : List (RequestBlock H σ)} (hepoch : eb.epochNumber + 1 = e)
    (hgenesis : genesisEpoch + 1 < e) (hnew : D.epochHash eb ∉ s.epochs)
    (hprevious : eb.previous ∈ s.epochs) (htip : s.epochTip = some tip)
    (hbehind : tip.epoch + 1 ≠ e)
    (hnext : Machine.Along (BlockStore.write D) (NextWrite D e T) s (ms.map .request)) :
    ∃ s1 s0 f',Machine.exec (BlockStore.write D) s (ms.map .request) = some (s1,[]) ∧
      Ready D e T f' s1 ∧ Bridged e T f' s0 ∧ ∀ xs ys,xs ++ ys = ms →
        ∃ s',Machine.exec (BlockStore.write D) s
          (xs.map .request ++ .epoch eb :: ys.map .request) = some (s',[]) ∧ Agree s' s0 := by
  have hlate : ¬eb.epochNumber ≤ genesisEpoch := by
    unfold genesisEpoch at *
    bv_omega
  induction ms generalizing s f with
  | nil =>
    obtain ⟨s2,hs2,hj,-⟩ := h.applyEpochBlock hepoch hlate hnew hprevious
    refine ⟨s,s2,f,rfl,h,hj.bridged h,fun xs ys hsplit => ⟨s2,?_,⟨fun _ => rfl,fun _ => rfl,rfl⟩⟩⟩
    obtain ⟨rfl,rfl⟩ := List.append_eq_nil_iff.mp hsplit
    rw [map_nil,List.nil_append,exec_cons_of_step (write_epoch hs2)]
    rfl
  | cons m ms ih =>
    have hm : Next D e T s m := hnext.1
    obtain ⟨d,hd⟩ := hm.delegate
    obtain ⟨s1,p,linked,hs1,hplaced⟩ := hm.place h htip hbehind
    have hwrite1 := write_request hs1
    have hready := h.store hm hplaced
    rw [← hplaced.stored.epochs] at hnew hprevious
    obtain ⟨sₙ,s0,f',hrun,hready',hjoined,hall⟩ := ih hready hnew hprevious
      (hplaced.stored.epochTip.trans htip) (hnext.2 s1 [] hwrite1)
    refine ⟨sₙ,s0,f',?_,hready',hjoined,fun xs ys hsplit => ?_⟩
    · rw [map_cons,exec_cons_of_step hwrite1,hrun]
      rfl
    · cases xs with
      | cons x xs =>
        obtain ⟨rfl,hrest⟩ := List.cons.inj hsplit
        obtain ⟨s',hs',hagree⟩ := hall xs ys hrest
        refine ⟨s',?_,hagree⟩
        rw [map_cons,List.cons_append,exec_cons_of_step hwrite1,hs']
        rfl
      | nil =>
        obtain rfl : ys = m :: ms := hsplit
        -- the epoch block comes first: swap it with the first request block
        obtain ⟨s3,hs3,hj1,htip3⟩ := hready.applyEpochBlock hepoch hlate hnew hprevious
        rw [hplaced.stored.epochs] at hnew hprevious
        obtain ⟨s2,hs2,hj,htip2⟩ := h.applyEpochBlock hepoch hlate hnew hprevious
        obtain ⟨s4,p2,hs4,hstored,hfirst,hlater⟩ := hm.place_joined h hj htip2 hepoch hgenesis hd
        have hsquare : Agree s3 s4 := square h hm hd hplaced hj hj1 hstored hfirst hlater
          (htip3.trans htip2.symm)
        obtain ⟨s',hs',hagree⟩ := hall [] ms rfl
        rw [map_nil,List.nil_append] at hs' ⊢
        obtain ⟨s5,o1,o2,hstep,hrest,ho⟩ := Machine.exec_cons_eq_some hs'
        obtain ⟨rfl,rfl⟩ := List.append_eq_nil_iff.mp ho.symm
        obtain ⟨rfl,-⟩ := Prod.mk.inj (some.inj ((write_epoch hs3).symm.trans hstep))
        obtain ⟨t',ht',hagree'⟩ := hsquare.exec hrest
        refine ⟨t',?_,?_⟩
        · rw [exec_cons_of_step (write_epoch hs2),map_cons,
            exec_cons_of_step (write_request hs4),ht']
          rfl
        · exact ⟨fun k => (hagree'.blocks k).symm.trans (hagree.blocks k),
            fun key => (hagree'.tips key).symm.trans (hagree.tips key),
            hagree'.epochTip.symm.trans hagree.epochTip⟩

end Run

section Sample

theorem next_iff {e : BitVec 32} {T : Fin numDelegates → Tip H} {s : BlockStore H σ}
    {m : RequestBlock H σ} :
    (m.epochNumber = e ∧ (∃ d : Fin numDelegates,m.primaryDelegate = ofNat 8 d) ∧
      D.requestHash m ∉ s.requestBlocks ∧ D.requestHash m ≠ 0 ∧
      (m.sequence = 0 → m.previous = 0 ∧ s.requestTips.lookup (slot m) = none ∧
        ∀ d : Fin numDelegates,m.primaryDelegate = ofNat 8 d →
          ∃ q ∈ s.requestBlocks.lookup (T d).digest,q.primaryDelegate = m.primaryDelegate ∧
            q.epochNumber ≠ e) ∧
      (m.sequence ≠ 0 → Succeeds s m)) ↔ Next D e T s m :=
  ⟨fun h => ⟨h.1,h.2.1,h.2.2.1,h.2.2.2.1,h.2.2.2.2.1,h.2.2.2.2.2⟩,
    fun h => ⟨h.epoch,h.delegate,h.fresh,h.hash,h.first,h.later⟩⟩

instance (e : BitVec 32) (T : Fin numDelegates → Tip H) (s : BlockStore H σ)
    (m : RequestBlock H σ) : Decidable (Next D e T s m) :=
  decidable_of_iff _ (next_iff D)

instance (e : BitVec 32) (T : Fin numDelegates → Tip H) (s : BlockStore H σ) :
    DecidablePred (NextWrite D e T s)
  | .request m => inferInstanceAs (Decidable (Next D e T s m))
  | .epoch _ => inferInstanceAs (Decidable True)

def lastBlock (d : Fin numDelegates) : RequestBlock ℕ Unit := sampleBlock (BitVec.ofNat 8 d) 3 0 0 []

def lastTip (d : Fin numDelegates) : Tip ℕ :=
  tipOf (lastBlock d) (Digests.sample.requestHash (lastBlock d))

def sampleEpoch (n : BitVec 32) (previous : ℕ) : EpochBlock ℕ Unit :=
  sampleBlock 0 n n previous ⟨0,0,0,[],0,false⟩

def boundaryStore : BlockStore ℕ Unit :=
  let genesis := sampleEpoch 2 0
  { BlockStore.empty with
    requestBlocks := ((List.finRange numDelegates).map fun d =>
      ⟨(lastTip d).digest,lastBlock d⟩).toAList
    requestTips := ((List.finRange numDelegates).map fun d => ⟨tipKey d 3,lastTip d⟩).toAList
    epochs := AList.singleton (Digests.sample.epochHash genesis) genesis
    epochTip := some (tipOf genesis (Digests.sample.epochHash genesis)) }

def boundaryBlock : EpochBlock ℕ Unit :=
  sampleEpoch 3 (Digests.sample.epochHash (sampleEpoch 2 0))

def boundaryRequests : List (RequestBlock ℕ Unit) :=
  let first : RequestBlock ℕ Unit := sampleBlock 0 4 0 0 []
  [first,sampleBlock 0 4 1 (Digests.sample.requestHash first) []]

theorem ready_boundaryStore : Ready sample 4 lastTip (fun _ => 0) boundaryStore :=
  ⟨by decide +kernel,by decide +kernel,by decide +kernel,fun _ h => absurd rfl h,
    fun _ h => absurd rfl h⟩

theorem exec_epochBlock_anywhere_sample :
    ∃ s1 s0 f',Machine.exec (BlockStore.write Digests.sample) boundaryStore
        (boundaryRequests.map .request) = some (s1,[]) ∧ Ready Digests.sample 4 lastTip f' s1 ∧
      Bridged 4 lastTip f' s0 ∧ ∀ xs ys,xs ++ ys = boundaryRequests →
        ∃ s',Machine.exec (BlockStore.write Digests.sample) boundaryStore
          (xs.map .request ++ .epoch boundaryBlock :: ys.map .request) = some (s',[]) ∧
            Agree s' s0 := by
  have hnext : checks (BlockStore.write sample)
      (fun s w => decide (NextWrite sample 4 lastTip s w)) boundaryStore
      (boundaryRequests.map .request) = true := by decide +kernel
  exact exec_epochBlock_anywhere ready_boundaryStore (by decide) (by decide) (by decide +kernel)
    (by decide +kernel) rfl (by decide)
    (Machine.along_of_decide hnext)

/-- The epoch block halts where a delegate has no block. A first block that names the last one of
its delegate is linked after the epoch block; before it, that block ends up pointing to itself. -/
theorem epochBlock_placed_matters :
    BlockStore.write Digests.sample { boundaryStore with requestBlocks := ∅,requestTips := ∅ }
        (.epoch boundaryBlock) = none ∧
      let named : RequestBlock ℕ Unit := sampleBlock 0 4 0 (lastTip 0).digest []
      ((exec (BlockStore.write sample) boundaryStore
          [.epoch boundaryBlock,.request named]).map fun r =>
            (r.1.requestBlocks.lookup (lastTip 0).digest).map (·.next)) =
        some (some (sample.requestHash named)) ∧
      ((exec (BlockStore.write sample) boundaryStore
          [.request named,.epoch boundaryBlock]).map fun r =>
            (r.1.requestBlocks.lookup (lastTip 0).digest).map (·.next)) =
        some (some (lastTip 0).digest) ∧
      sample.requestHash named ≠ (lastTip 0).digest := by
  decide +kernel

end Sample

section Slots

/-- What a delegate takes for the place of the next request block of a primary. -/
structure Place (H : Type) where
  previous : H
  sequence : BitVec 32
deriving DecidableEq,Repr

/-- What the constructors of primary and backups read: the tip or zero, and its block. -/
def BlockStore.slotTip (s : BlockStore H σ) (d : BitVec 8) (epoch : BitVec 32) : Tip H :=
  (s.requestTips.lookup (d,epoch)).getD 0

def BlockStore.slotBlock (s : BlockStore H σ) (d : BitVec 8) (epoch : BitVec 32) :
    Option (RequestBlock H σ) :=
  if (s.slotTip d epoch).digest ≠ 0 then s.requestBlocks.lookup (s.slotTip d epoch).digest else none

/-- A `RequestBackupDelegate` that is made for an epoch expects the number after that of the tip. -/
def BlockStore.backupPlace (s : BlockStore H σ) (remote : BitVec 8) (epoch : BitVec 32) : Place H :=
  ⟨(s.slotTip remote epoch).digest,((s.slotBlock remote epoch).map (·.sequence + 1)).getD 0⟩

/-- A `RequestConsensusManager` counts on only from a block of its epoch. -/
def BlockStore.primaryPlace (s : BlockStore H σ) (d : BitVec 8) (epoch : BitVec 32) : Place H :=
  ⟨(s.slotTip d epoch).digest,
    (((s.slotBlock d epoch).filter (·.epochNumber = epoch)).map (·.sequence + 1)).getD 0⟩

/-- They agree exactly where the block of the tip, if any, is of the epoch or has the last
number. -/
theorem backupPlace_eq_primaryPlace_iff {s : BlockStore H σ} {d : BitVec 8} {epoch : BitVec 32} :
    s.backupPlace d epoch = s.primaryPlace d epoch ↔
      ∀ b ∈ s.slotBlock d epoch,b.epochNumber = epoch ∨ b.sequence + 1 = 0 := by
  unfold BlockStore.backupPlace BlockStore.primaryPlace
  cases s.slotBlock d epoch with
  | none => simp
  | some b =>
    by_cases hepoch : b.epochNumber = epoch
    · simp [hepoch,Option.filter]
    · simp [hepoch,Option.filter]

/-- With the tip of the last epoch, the backup waits for block one and the primary makes block
zero. -/
theorem places_differ_after_epochBlock :
    ((boundaryStore.applyEpochBlock Digests.sample boundaryBlock).map fun s =>
      (s.backupPlace 0 4,s.primaryPlace 0 4)) =
        some (⟨(lastTip 0).digest,1⟩,⟨(lastTip 0).digest,0⟩) := by
  decide +kernel

end Slots

end LogosCore.Archive
