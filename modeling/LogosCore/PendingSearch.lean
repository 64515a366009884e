import LogosCore.PendingBlocks

/-! # What the search for the next block does

A thread that asks for the next block gives back the one it has: where it found it to be good, the
front of its chain is taken away, or the whole period of an epoch block. The block it gets is the
front of a chain, waits for nothing and is not locked. -/
namespace LogosCore.Cache

open Option

open Ledger (Epoch)
open Archive (numDelegates)

section Operations

variable {H : Type} [DecidableEq H]

def Chained (es : List (EpochPeriod H)) (b : Block H) : Prop :=
  ∃ e ∈ es,e.epochNum = b.epochNumber ∧ b ∈ e.lane b.lane

def AtFront (es : List (EpochPeriod H)) (b : Block H) : Prop :=
  ∃ e ∈ es,e.epochNum = b.epochNumber ∧ (e.lane b.lane).head? = some b

/-- The blocks of a period are those of its epoch, each chain by ascending numbers. -/
structure EpochPeriod.Sound (e : EpochPeriod H) : Prop where
  number : e.epochNum ≠ Container.noEpoch
  placed : ∀ l,∀ b ∈ e.lane l,b.epochNumber = e.epochNum ∧ b.lane = l
  ordered : ∀ l,(e.lane l).Pairwise fun b b' => b.sequence < b'.sequence

structure Sound (es : List (EpochPeriod H)) : Prop where
  periods : ∀ e ∈ es,e.Sound
  ascending : es.Pairwise fun e e' => e.epochNum < e'.epochNum

/-- The period without the first block of a chain; the epoch block goes with its period. -/
def EpochPeriod.popLane (e : EpochPeriod H) : Lane → EpochPeriod H
  | .request d => { e with rbs := Function.update e.rbs d (e.rbs d).tail }
  | .micro => { e with mbs := e.mbs.tail }
  | .epoch => e

def removeFront (es : List (EpochPeriod H)) (b : Block H) : List (EpochPeriod H) :=
  es.filterMap fun e =>
    if e.epochNum = b.epochNumber then
      if b.isEpoch then none else some (e.popLane b.lane)
    else some e

variable {post pre : List (EpochPeriod H)}

namespace Container

variable {c c' : Container H} {e : EpochPeriod H} {success : Bool} {idx idx' : Fin numDelegates}
  {b p : Block H} {ptr : Option (Block H)} {before rest : List (EpochPeriod H)}

theorem head?_lane_request {d : Fin numDelegates} {r : RequestBlock H}
    (h : (e.rbs d).head? = some r) (hd : r.primaryDelegate = d) :
    (e.lane (Block.request r).lane).head? = some (.request r) := by
  simp only [Block.lane,hd,EpochPeriod.lane,List.head?_map,h,map_some]

theorem readyRequest_spec {rbs : Fin numDelegates → List (RequestBlock H)} {n : ℕ}
    {r : RequestBlock H} (h : c.readyRequest rbs n idx = some (r,idx')) :
    (rbs idx').head? = some r ∧ c.ready r.hash = true := by
  induction n generalizing idx with
  | zero => cases h
  | succ n ih =>
    unfold readyRequest at h
    split at h
    · next b hb =>
      split at h
      · next hready =>
        cases h
        exact ⟨hb,hready⟩
      · exact ih h
    · exact ih h

/-- What is offered is the front of a chain and ready. -/
theorem offer_spec (he : e.Sound) {due : Bool} (h : c.offer e ptr idx due = some (b,idx')) :
    b.epochNumber = e.epochNum ∧ (e.lane b.lane).head? = some b ∧ c.ready b.hash = true := by
  have hplaced : ∀ {b},(e.lane b.lane).head? = some b → b.epochNumber = e.epochNum :=
    fun {b} hb => (he.placed _ b (List.mem_of_mem_head? hb)).1
  have hrequest : ∀ r,(c.readyRequest e.rbs numDelegates idx).map
      (fun p => ((.request p.1 : Block H),p.2)) = some r →
      (e.lane r.1.lane).head? = some r.1 ∧ c.ready r.1.hash = true := by
    intro r hr
    obtain ⟨⟨q,d⟩,hq,rfl⟩ := map_eq_some_iff.mp hr
    obtain ⟨hhead,hready⟩ := readyRequest_spec hq
    have hmem : Block.request q ∈ e.lane (.request d) :=
      List.mem_map_of_mem (List.mem_of_mem_head? hhead)
    have hd : q.primaryDelegate = d := Lane.request.inj (he.placed _ _ hmem).2
    exact ⟨head?_lane_request hhead hd,hready⟩
  have hmicro : ∀ r,(e.mbs.head?.filter fun m => c.ready m.hash).map
      (fun m => ((.micro m : Block H),idx)) = some r →
      (e.lane r.1.lane).head? = some r.1 ∧ c.ready r.1.hash = true := by
    intro r hr
    obtain ⟨m,hm,rfl⟩ := map_eq_some_iff.mp hr
    obtain ⟨hhead,hready⟩ := filter_eq_some_iff.mp hm
    refine ⟨?_,hready⟩
    simp only [Block.lane,EpochPeriod.lane,List.head?_map,hhead,map_some]
  have hepoch : ∀ r,(e.eb.filter fun b => due && c.ready b.hash).map
      (fun b => ((.epoch b : Block H),idx)) = some r →
      (e.lane r.1.lane).head? = some r.1 ∧ c.ready r.1.hash = true := by
    intro r hr
    obtain ⟨m,hm,rfl⟩ := map_eq_some_iff.mp hr
    obtain ⟨hhead,hready⟩ := filter_eq_some_iff.mp hm
    refine ⟨?_,(Bool.and_eq_true_iff.mp hready).2⟩
    simp only [Block.lane,EpochPeriod.lane,hhead,toList_some,List.map_cons,List.head?_cons]
  have hfront : (e.lane b.lane).head? = some b ∧ c.ready b.hash = true := by
    unfold offer at h
    simp only [or_eq_some_iff] at h
    rcases h with (h | ⟨-,h⟩) | ⟨-,h⟩
    · split at h
      · cases h
      · cases h
      · exact hrequest _ h
    · split at h
      · cases h
      · exact hmicro _ h
    · exact hepoch _ h
  exact ⟨hplaced hfront.1,hfront⟩

theorem search_none (c : Container H) (success : Bool) (idx : Fin numDelegates)
    (before : List (EpochPeriod H)) (hs : ∀ e ∈ rest,e.Sound) :
    search c success before rest none noEpoch idx =
      some ({ c with epochs := before ++ rest },none) ∨
    ∃ b idx',search c success before rest none noEpoch idx =
        some ({ c.setLock b.hash true with epochs := before ++ rest },some (b,idx')) ∧
      AtFront rest b ∧ c.ready b.hash = true := by
  induction rest generalizing before with
  | nil =>
    left
    simp only [search,List.append_nil]
  | cons e rest ih =>
    have hsettle : settle e none idx success = e := by
      unfold settle
      split <;> rfl
    have hlast : lastSettled (none : Option (Block H)) success = false := rfl
    simp only [search,noEpoch,ne_eq,not_true_eq_false,false_and,if_false,hsettle,hlast,
      Bool.false_eq_true,any_none]
    cases hoffer : c.offer e none idx (false || e.mbs.isEmpty) with
    | some r =>
      obtain ⟨hepoch,hhead,hready⟩ := offer_spec (hs e List.mem_cons_self) hoffer
      exact .inr ⟨r.1,r.2,rfl,⟨e,List.mem_cons_self,hepoch.symm,hhead⟩,hready⟩
    | none =>
      simp only
      split
      · rcases ih (before ++ [e]) fun e' he' => hs e' (List.mem_cons_of_mem _ he') with
          h | ⟨b,idx',h,⟨e',he',hb⟩,hready⟩
        · left
          rw [noEpoch] at h
          rw [h,List.append_assoc,List.singleton_append]
        · right
          rw [noEpoch] at h
          refine ⟨b,idx',?_,⟨e',List.mem_cons_of_mem _ he',hb⟩,hready⟩
          rw [h,List.append_assoc,List.singleton_append]
      · exact .inl rfl

theorem search_skip {wanted : Epoch} (hwanted : wanted ≠ noEpoch)
    (hpre : ∀ e ∈ pre,e.epochNum ≠ wanted) :
    search c success before (pre ++ post) ptr wanted idx =
      search c success (before ++ pre) post ptr wanted idx := by
  induction pre generalizing before with
  | nil => simp
  | cons e pre ih =>
    have hne := hpre e List.mem_cons_self
    rw [List.cons_append,search,if_pos ⟨hwanted,hne⟩,
      ih fun e' he' => hpre e' (List.mem_cons_of_mem _ he'),List.append_assoc,
      List.singleton_append]

theorem settle_eq (p : Block H) (e : EpochPeriod H) (idx : Fin numDelegates) :
    settle e (some p) (startIndex idx p) true = e.popLane p.lane := by
  cases p <;> rfl

end Container

section Periods

variable {es : List (EpochPeriod H)} {b p : Block H} {e : EpochPeriod H}

theorem ne_of_lt {m n : Epoch} (h : m < n) : m ≠ n := by
  rintro rfl
  exact BitVec.lt_irrefl _ h

/-- The period of an epoch, with the periods before and after it. -/
theorem Sound.split (h : Sound es) (he : e ∈ es) :
    ∃ pre post,es = pre ++ e::post ∧ (∀ e' ∈ pre,e'.epochNum ≠ e.epochNum) ∧
      ∀ e' ∈ post,e'.epochNum ≠ e.epochNum := by
  obtain ⟨pre,post,rfl⟩ := List.append_of_mem he
  have hasc := List.pairwise_append.mp h.ascending
  refine ⟨pre,post,rfl,fun e' he' => ?_,fun e' he' => ?_⟩
  · exact ne_of_lt (hasc.2.2 e' he' e List.mem_cons_self)
  · exact (ne_of_lt ((List.pairwise_cons.mp hasc.2.1).1 e' he')).symm

theorem Sound.eq_of_number (h : Sound es) {e' : EpochPeriod H} (he : e ∈ es) (he' : e' ∈ es)
    (hnumber : e'.epochNum = e.epochNum) : e' = e := by
  obtain ⟨pre,post,rfl,hpre,hpost⟩ := h.split he
  rcases List.mem_append.mp he' with hmem | hmem
  · exact absurd hnumber (hpre e' hmem)
  · rcases List.mem_cons.mp hmem with rfl | hmem
    · rfl
    · exact absurd hnumber (hpost e' hmem)

theorem filterMap_self {f : EpochPeriod H → Option (EpochPeriod H)} {l : List (EpochPeriod H)}
    (h : ∀ e ∈ l,f e = some e) : l.filterMap f = l := by
  induction l with
  | nil => rfl
  | cons e l ih =>
    rw [List.filterMap_cons,h e List.mem_cons_self,
      ih fun e' he' => h e' (List.mem_cons_of_mem _ he')]

theorem removeFront_split (he : e.epochNum = p.epochNumber)
    (hpre : ∀ e' ∈ pre,e'.epochNum ≠ p.epochNumber)
    (hpost : ∀ e' ∈ post,e'.epochNum ≠ p.epochNumber) :
    removeFront (pre ++ e::post) p =
      pre ++ (if p.isEpoch then post else e.popLane p.lane::post) := by
  unfold removeFront
  rw [List.filterMap_append,List.filterMap_cons,filterMap_self fun e' he' => if_neg (hpre e' he'),
    filterMap_self fun e' he' => if_neg (hpost e' he'),if_pos he]
  cases p.isEpoch <;> rfl

@[simp] theorem popLane_epochNum (e : EpochPeriod H) (l : Lane) :
    (e.popLane l).epochNum = e.epochNum := by
  cases l <;> rfl

theorem lane_popLane (e : EpochPeriod H) (l l' : Lane) (h : l ≠ .epoch) :
    (e.popLane l).lane l' = if l' = l then (e.lane l').tail else e.lane l' := by
  cases l with
  | epoch => exact absurd rfl h
  | micro => cases l' <;> simp [EpochPeriod.popLane,EpochPeriod.lane,List.map_tail]
  | request d =>
    cases l' with
    | request d' =>
      by_cases hd : d' = d
      · subst hd
        simp [EpochPeriod.popLane,EpochPeriod.lane,List.map_tail]
      · simp [EpochPeriod.popLane,EpochPeriod.lane,hd]
    | micro => simp [EpochPeriod.popLane,EpochPeriod.lane]
    | epoch => simp [EpochPeriod.popLane,EpochPeriod.lane]

theorem lane_eq_epoch : b.lane = .epoch ↔ b.isEpoch = true := by
  cases b <;> simp [Block.lane,Block.isEpoch]

theorem EpochPeriod.Sound.popLane (h : e.Sound) (l : Lane) : (e.popLane l).Sound := by
  by_cases hl : l = .epoch
  · subst hl
    exact h
  · refine ⟨by rw [popLane_epochNum]; exact h.number,fun l' b hb => ?_,fun l' => ?_⟩
    · rw [popLane_epochNum]
      rw [lane_popLane e l l' hl] at hb
      split at hb
      · exact h.placed l' b (List.mem_of_mem_tail hb)
      · exact h.placed l' b hb
    · rw [lane_popLane e l l' hl]
      split
      · exact (h.ordered l').tail
      · exact h.ordered l'

theorem Sound.removeFront (h : Sound es) (p : Block H) : Sound (removeFront es p) := by
  unfold Cache.removeFront
  refine ⟨fun e he => ?_,?_⟩
  · obtain ⟨e',he',hmap⟩ := List.mem_filterMap.mp he
    split at hmap
    · split at hmap
      · cases hmap
      · cases hmap
        exact (h.periods e' he').popLane _
    · cases hmap
      exact h.periods _ he'
  · refine List.Pairwise.filterMap _ (fun e e' hlt d hd d' hd' => ?_) h.ascending
    have hnumber : ∀ {a a' : EpochPeriod H},a' ∈ (if a.epochNum = p.epochNumber then
        if p.isEpoch then none else some (a.popLane p.lane) else some a : Option (EpochPeriod H)) →
        a'.epochNum = a.epochNum := by
      intro a a' ha'
      split at ha'
      · split at ha'
        · cases ha'
        · cases ha'
          exact popLane_epochNum _ _
      · cases ha'
        rfl
    rw [hnumber hd,hnumber hd']
    exact hlt

theorem chained_removeFront (hs : Sound es) (hp : AtFront es p) (hepoch : p.isEpoch = false) :
    Chained (removeFront es p) b ↔ Chained es b ∧ b ≠ p := by
  obtain ⟨e,he,hnumber,hhead⟩ := hp
  obtain ⟨pre,post,rfl,hpre,hpost⟩ := hs.split he
  have hlane : p.lane ≠ .epoch := fun h => by rw [lane_eq_epoch.mp h] at hepoch; cases hepoch
  rw [removeFront_split hnumber (fun e' h => hnumber ▸ hpre e' h) fun e' h => hnumber ▸ hpost e' h,
    hepoch,if_neg Bool.false_ne_true]
  obtain ⟨tail,htail⟩ : ∃ tail,e.lane p.lane = p::tail := by
    cases hl : e.lane p.lane with
    | nil =>
      rw [hl] at hhead
      cases hhead
    | cons q tail =>
      rw [hl,List.head?_cons,some_inj] at hhead
      exact ⟨tail,by rw [hhead]⟩
  have hnot : p ∉ tail := by
    have hordered := (hs.periods e he).ordered p.lane
    rw [htail] at hordered
    exact fun hmem => BitVec.lt_irrefl _ ((List.pairwise_cons.mp hordered).1 p hmem)
  constructor
  · rintro ⟨e',he',hn,hb⟩
    rcases List.mem_append.mp he' with hmem | hmem
    · refine ⟨⟨e',List.mem_append_left _ hmem,hn,hb⟩,?_⟩
      rintro rfl
      exact hpre e' hmem (hn.trans hnumber.symm)
    · rcases List.mem_cons.mp hmem with rfl | hpast
      · rw [popLane_epochNum] at hn
        rw [lane_popLane e _ _ hlane] at hb
        refine ⟨⟨e,he,hn,?_⟩,?_⟩
        · split at hb
          · exact List.mem_of_mem_tail hb
          · exact hb
        · rintro rfl
          rw [if_pos rfl,htail] at hb
          exact hnot hb
      · refine ⟨⟨e',List.mem_append_right _ (List.mem_cons_of_mem _ hpast),hn,hb⟩,?_⟩
        rintro rfl
        exact hpost e' hpast (hn.trans hnumber.symm)
  · rintro ⟨⟨e',he',hn,hb⟩,hne⟩
    rcases List.mem_append.mp he' with hmem | hmem
    · exact ⟨e',List.mem_append_left _ hmem,hn,hb⟩
    · rcases List.mem_cons.mp hmem with rfl | hmem
      · refine ⟨e'.popLane p.lane,List.mem_append_right _ List.mem_cons_self,
          (popLane_epochNum _ _).trans hn,?_⟩
        rw [lane_popLane _ _ _ hlane]
        split
        · next hsame =>
          rw [hsame,htail] at hb ⊢
          exact (List.mem_cons.mp hb).resolve_left hne
        · exact hb
      · exact ⟨e',List.mem_append_right _ (List.mem_cons_of_mem _ hmem),hn,hb⟩

theorem AtFront.chained (h : AtFront es b) : Chained es b := by
  obtain ⟨e,he,hnumber,hhead⟩ := h
  exact ⟨e,he,hnumber,List.mem_of_mem_head? hhead⟩

theorem chained_of_removeFront (h : Chained (removeFront es p) b) : Chained es b := by
  obtain ⟨e,he,hnumber,hb⟩ := h
  obtain ⟨e',he',hmap⟩ := List.mem_filterMap.mp he
  split at hmap
  · split at hmap
    · cases hmap
    · next hepoch =>
      cases hmap
      rw [popLane_epochNum] at hnumber
      refine ⟨e',he',hnumber,?_⟩
      rw [lane_popLane _ _ _ fun h => hepoch (lane_eq_epoch.mp h)] at hb
      split at hb
      · exact List.mem_of_mem_tail hb
      · exact hb
  · cases hmap
    exact ⟨_,he',hnumber,hb⟩

end Periods

namespace Container

variable {c c' : Container H} {success : Bool} {idx idx' : Fin numDelegates} {b p : Block H}
  {ptr : Option (Block H)} {found : Option (Block H × Fin numDelegates)}

/-- The chains after a thread gave its block back, before it gets another one. -/
def giveBack (c : Container H) (ptr : Option (Block H)) (success : Bool) : Container H :=
  match ptr with
  | some b =>
    { c.setLock b.hash false with
      epochs := if success then removeFront c.epochs b else c.epochs }
  | none => c

/-- The thread gets a block that is the front of a chain and ready. -/
def Gets (c c' : Container H) : Option (Block H × Fin numDelegates) → Prop
  | none => c' = c
  | some (b,_) => c' = c.setLock b.hash true ∧ AtFront c.epochs b ∧ c.ready b.hash = true

theorem search_gets (hs : ∀ e ∈ post,e.Sound)
    (h : search c success pre post none noEpoch idx = some (c',found)) :
    Gets { c with epochs := pre ++ post } c' found := by
  rcases search_none c success idx pre hs with
    heq | ⟨b,idx',heq,⟨e,he,hb⟩,hready⟩
  · rw [heq] at h
    cases h
    rfl
  · rw [heq] at h
    cases h
    exact ⟨rfl,⟨e,List.mem_append_right _ he,hb⟩,hready⟩

theorem settle_failed (e : EpochPeriod H) : settle e ptr idx false = e := rfl

theorem search_here {e : EpochPeriod H} (he : (settle e (some p) idx success).Sound)
    (hpost : ∀ e' ∈ post,e'.Sound) (hnumber : e.epochNum = p.epochNumber)
    (h : search c success pre (e::post) (some p) p.epochNumber idx = some (c',found)) :
    Gets { c with epochs := pre ++ (if p.isEpoch && success then post
      else settle e (some p) idx success::post) } c' found := by
  rw [search,if_neg fun hne => hne.2 hnumber] at h
  simp only [any_some] at h
  split at h
  · cases h
  · split at h
    · next hepoch =>
      rw [if_pos (Bool.and_eq_true_iff.mpr hepoch)]
      exact search_gets hpost h
    · next hepoch =>
      rw [if_neg fun hand => hepoch (Bool.and_eq_true_iff.mp hand)]
      split at h
      · next b idx' hoffer =>
        cases h
        obtain ⟨hb,hhead,hready⟩ := offer_spec he hoffer
        exact ⟨rfl,⟨_,List.mem_append_right _ List.mem_cons_self,hb.symm,hhead⟩,hready⟩
      · split at h
        · have := search_gets hpost h
          rwa [List.append_assoc,List.singleton_append] at this
        · cases h
          rfl

/-- What `GetNextBlock` does: it gives the block of the thread back and looks for another. -/
theorem getNextBlock_spec (hs : Sound c.epochs) (hptr : ∀ p ∈ ptr,AtFront c.epochs p)
    (h : c.getNextBlock ptr idx success = some (c',found)) :
    Gets (c.giveBack ptr success) c' found := by
  cases ptr with
  | none => exact search_gets hs.periods h
  | some p =>
    obtain ⟨e,he,hnumber,-⟩ := hptr p rfl
    have hsound := hs.periods
    obtain ⟨pre,post,hsplit,hpre,hpost⟩ := hs.split he
    have hsettled : settle e (some p) (startIndex idx p) success =
        if success then e.popLane p.lane else e := by
      cases success
      · rfl
      · exact settle_eq p e idx
    have hgiven : (c.giveBack (some p) success).epochs = pre ++ (if p.isEpoch && success then post
        else settle e (some p) (startIndex idx p) success::post) := by
      rw [hsettled]
      cases success
      · simpa [giveBack] using hsplit
      · simp only [giveBack,if_true,Bool.and_true,hsplit]
        exact removeFront_split hnumber (fun e' h => hnumber ▸ hpre e' h)
          fun e' h => hnumber ▸ hpost e' h
    rw [hnumber] at hpre
    have hne : p.epochNumber ≠ noEpoch := hnumber ▸ (hsound e he).number
    rw [hsplit] at hsound
    simp only [getNextBlock,hsplit] at h
    rw [search_skip hne hpre,List.nil_append] at h
    have hgets := search_here ?_ (fun e' he' => hsound e' (List.mem_append_right _
      (List.mem_cons_of_mem _ he'))) hnumber h
    · rw [← hgiven] at hgets
      exact hgets
    · rw [hsettled]
      have hthis := hsound e (List.mem_append_right _ List.mem_cons_self)
      split
      · exact hthis.popLane _
      · exact hthis

end Container

end Operations

end LogosCore.Cache
