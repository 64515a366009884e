import LogosCore.PendingSearch

/-! # Blocks in their chains

A block that has a place of its own in its chain is put there, and the chains stay in order. -/
namespace LogosCore.Cache

open Ledger (Epoch)
open Container (addBlock noEpoch)
open List (mem_append mem_append_left mem_append_right mem_cons mem_cons_of_mem mem_cons_self
  mem_map mem_reverse pairwise_append pairwise_cons pairwise_map)
open Archive (numDelegates)
open Container (addToPeriod)

section Insertion

variable {α : Type} {key : α → BitVec 32} {x : α}

/-- The search for the place stops at a duplicate. -/
theorem insertBack_spec {l : List α} (hfree : ∀ y ∈ l,key y ≠ key x)
    (hl : l.Pairwise fun y z => key z < key y) :
    ∃ l' front,insertBack key x l = some (l',front) ∧ (∀ y,y ∈ l' ↔ y = x ∨ y ∈ l) ∧
      l'.Pairwise fun y z => key z < key y := by
  induction l with
  | nil => exact ⟨[x],true,rfl,by simp,List.pairwise_singleton _ _⟩
  | cons y l ih =>
    obtain ⟨hhead,htail⟩ := pairwise_cons.mp hl
    have hne := hfree y mem_cons_self
    unfold insertBack
    rw [if_neg hne]
    split
    · next hlt =>
      refine ⟨_,_,rfl,fun z => mem_cons,pairwise_cons.mpr ⟨fun z hz => ?_,hl⟩⟩
      rcases mem_cons.mp hz with rfl | hz
      · exact hlt
      · exact BitVec.lt_trans (hhead z hz) hlt
    · next hnlt =>
      obtain ⟨l',front,heq,hmem,hord⟩ := ih (fun z hz => hfree z (mem_cons_of_mem _ hz)) htail
      rw [heq]
      refine ⟨y::l',front,rfl,fun z => ?_,pairwise_cons.mpr ⟨fun z hz => ?_,hord⟩⟩
      · rw [mem_cons,hmem,mem_cons]
        exact or_left_comm
      · rcases (hmem z).mp hz with rfl | hz
        · bv_omega
        · exact hhead z hz

theorem insertChain_spec {l : List α} (hfree : ∀ y ∈ l,key y ≠ key x)
    (hl : l.Pairwise fun y z => key y < key z) :
    (∀ y,y ∈ (insertChain key x l).1 ↔ y = x ∨ y ∈ l) ∧
      (insertChain key x l).1.Pairwise fun y z => key y < key z := by
  have hplace : ∀ y ∈ l.reverse,key y ≠ key x := fun y hy => hfree y (mem_reverse.mp hy)
  obtain ⟨l',front,heq,hmem,hord⟩ := insertBack_spec hplace (List.pairwise_reverse.mpr hl)
  simp only [insertChain,heq]
  refine ⟨fun y => ?_,List.pairwise_reverse.mpr hord⟩
  rw [mem_reverse,hmem,mem_reverse]

end Insertion

section Chains

variable {H : Type} [DecidableEq H] {es : List (EpochPeriod H)} {b b' : Block H} {e : EpochPeriod H}

/-- A block that is taken in goes to its chain, and the others stay. -/
structure TakesIn (e e' : EpochPeriod H) (b : Block H) : Prop where
  number : e'.epochNum = e.epochNum
  other : ∀ l,l ≠ b.lane → e'.lane l = e.lane l
  mem : ∀ b',b' ∈ e'.lane b.lane ↔ b' = b ∨ b' ∈ e.lane b.lane
  ordered : (e'.lane b.lane).Pairwise fun b b' => b.sequence < b'.sequence

theorem TakesIn.sound {e' : EpochPeriod H} (h : TakesIn e e' b) (he : e.Sound)
    (hb : e.epochNum = b.epochNumber) : e'.Sound := by
  refine ⟨h.number ▸ he.number,fun l b' hb' => ?_,fun l => ?_⟩
  · rw [h.number]
    by_cases hl : l = b.lane
    · subst hl
      rcases (h.mem b').mp hb' with rfl | hmem
      · exact ⟨hb.symm,rfl⟩
      · exact he.placed _ b' hmem
    · rw [h.other l hl] at hb'
      exact he.placed l b' hb'
  · by_cases hl : l = b.lane
    · exact hl ▸ h.ordered
    · rw [h.other l hl]
      exact he.ordered l

theorem TakesIn.mem_lane {e' : EpochPeriod H} (h : TakesIn e e' b) (l : Lane) :
    b' ∈ e'.lane l ↔ b' = b ∧ l = b.lane ∨ b' ∈ e.lane l := by
  by_cases hl : l = b.lane
  · subst hl
    simp [h.mem]
  · simp [h.other l hl,hl]

theorem takesIn_addToPeriod (he : e.Sound) (first : Bool)
    (hfree : ∀ b' ∈ e.lane b.lane,b'.sequence ≠ b.sequence) :
    TakesIn e (addToPeriod b e first).1 b := by
  have hordered := he.ordered b.lane
  cases b with
  | request r =>
    have hplace : ∀ y ∈ e.rbs r.primaryDelegate,y.sequence ≠ r.sequence :=
      fun y hy => hfree (.request y) (List.mem_map_of_mem hy)
    obtain ⟨hmem,hord⟩ := insertChain_spec hplace
      ((pairwise_map (f := Block.request)).mp hordered)
    have hlane : (addToPeriod (.request r) e first).1.lane (.request r.primaryDelegate) =
        (insertChain RequestBlock.sequence r (e.rbs r.primaryDelegate)).1.map .request := by
      simp [addToPeriod,EpochPeriod.lane]
    refine ⟨rfl,fun l hl => ?_,fun b' => ?_,?_⟩
    · cases l with
      | request d =>
        have hd : d ≠ r.primaryDelegate := fun h => hl (congrArg Lane.request h)
        simp [addToPeriod,EpochPeriod.lane,hd]
      | micro => rfl
      | epoch => rfl
    · simp only [Block.lane,hlane,mem_map,hmem]
      constructor
      · rintro ⟨y,rfl | hy,rfl⟩
        · exact .inl rfl
        · exact .inr (List.mem_map_of_mem hy)
      · rintro (rfl | hb')
        · exact ⟨r,.inl rfl,rfl⟩
        · obtain ⟨y,hy,rfl⟩ := mem_map.mp hb'
          exact ⟨y,.inr hy,rfl⟩
    · simp only [Block.lane,hlane]
      exact pairwise_map.mpr hord
  | micro m =>
    have hplace : ∀ y ∈ e.mbs,y.sequence ≠ m.sequence :=
      fun y hy => hfree (.micro y) (List.mem_map_of_mem hy)
    obtain ⟨hmem,hord⟩ := insertChain_spec hplace
      ((pairwise_map (f := Block.micro)).mp hordered)
    refine ⟨rfl,fun l hl => ?_,fun b' => ?_,?_⟩
    · cases l with
      | request d => rfl
      | micro => exact absurd rfl hl
      | epoch => rfl
    · simp only [Block.lane,addToPeriod,EpochPeriod.lane,mem_map,hmem]
      constructor
      · rintro ⟨y,rfl | hy,rfl⟩
        · exact .inl rfl
        · exact .inr ⟨y,hy,rfl⟩
      · rintro (rfl | ⟨y,hy,rfl⟩)
        · exact ⟨m,.inl rfl,rfl⟩
        · exact ⟨y,.inr hy,rfl⟩
    · exact pairwise_map.mpr hord
  | epoch x =>
    cases heb : e.eb with
    | some y =>
      have hmem : Block.epoch y ∈ e.lane .epoch := by simp [EpochPeriod.lane,heb]
      exact absurd rfl (hfree (.epoch y) hmem)
    | none =>
      have hadd : (addToPeriod (.epoch x) e first).1 = { e with eb := some x } := by
        simp [addToPeriod,heb]
      rw [hadd]
      refine ⟨rfl,fun l hl => ?_,fun b' => ?_,?_⟩
      · cases l with
        | request d => rfl
        | micro => rfl
        | epoch => exact absurd rfl hl
      · simp [Block.lane,EpochPeriod.lane,heb]
      · exact List.pairwise_singleton _ _

theorem addPeriod_cases (fresh : EpochPeriod H) (between : Bool)
    (change : EpochPeriod H → Bool → EpochPeriod H × Bool)
    (hes : es.Pairwise fun e e' => e'.epochNum < e.epochNum) :
    (∃ pre e post first,es = pre ++ e::post ∧ e.epochNum = fresh.epochNum ∧
      (addPeriod fresh between change es).1 = pre ++ (change e first).1::post) ∨
    ∃ pre post,es = pre ++ post ∧ (∀ e ∈ pre,fresh.epochNum < e.epochNum) ∧
      (∀ e ∈ post,e.epochNum < fresh.epochNum) ∧
      (addPeriod fresh between change es).1 = pre ++ fresh::post := by
  induction es with
  | nil => exact .inr ⟨[],[],rfl,by simp,by simp,rfl⟩
  | cons e es ih =>
    obtain ⟨hhead,htail⟩ := pairwise_cons.mp hes
    unfold addPeriod
    split
    · next heq => exact .inl ⟨[],e,es,_,rfl,heq,rfl⟩
    · split
      · next hne hlt =>
        refine .inr ⟨[],e::es,rfl,by simp,fun e' he' => ?_,rfl⟩
        rcases mem_cons.mp he' with rfl | he'
        · exact hlt
        · exact BitVec.lt_trans (hhead e' he') hlt
      · next hne hnlt =>
        rcases ih htail with ⟨pre,e',post,first,rfl,heq,hadd⟩ | ⟨pre,post,rfl,hpre,hpost,hadd⟩
        · exact .inl ⟨e::pre,e',post,first,rfl,heq,congrArg (e::·) hadd⟩
        · refine .inr ⟨e::pre,post,rfl,fun e' he' => ?_,hpost,congrArg (e::·) hadd⟩
          rcases mem_cons.mp he' with rfl | he'
          · bv_omega
          · exact hpre e' he'

def SameChain (b b' : Block H) : Prop := b.epochNumber = b'.epochNumber ∧ b.lane = b'.lane

instance (b b' : Block H) : Decidable (SameChain b b') := inferInstanceAs (Decidable (_ ∧ _))

def Free (es : List (EpochPeriod H)) (b : Block H) : Prop :=
  ∀ b',Chained es b' → SameChain b' b → b'.sequence ≠ b.sequence

theorem sound_empty {n : Epoch} (hn : n ≠ noEpoch) :
    (EpochPeriod.empty n : EpochPeriod H).Sound := by
  refine ⟨hn,fun l b hb => ?_,fun l => ?_⟩
  · cases l <;> cases hb
  · cases l <;> exact List.Pairwise.nil

variable {c : Container H} {verified : Bool}

/-- A block that is added changes the period of its epoch, which may be a new one without blocks. -/
theorem addBlock_period (hs : Sound c.epochs) (hb : b.epochNumber ≠ noEpoch)
    (hfree : Free c.epochs b) (verified : Bool) :
    ∃ pre e e' post,TakesIn e e' b ∧ e.epochNum = b.epochNumber ∧
      (c.addBlock b verified).1.epochs = pre ++ e'::post ∧ Sound (pre ++ e::post) ∧
      ∀ b',Chained (pre ++ e::post) b' ↔ Chained c.epochs b' := by
  have hempty := sound_empty (H := H) hb
  have hnone : ∀ l,(EpochPeriod.empty b.epochNumber : EpochPeriod H).lane l = [] := by
    intro l
    cases l <;> rfl
  have hfresh := takesIn_addToPeriod (b := b) hempty true fun b' hb' => by
    rw [hnone] at hb'
    cases hb'
  rcases addPeriod_cases (addToPeriod b (.empty b.epochNumber) true).1
      (Container.betweenPeriods b) (addToPeriod b) (List.pairwise_reverse.mpr hs.ascending) with
    ⟨pre,e,post,first,hes,heq,hadd⟩ | ⟨pre,post,hes,hpre,hpost,hadd⟩
  · rw [hfresh.number] at heq
    have hsplit : c.epochs = post.reverse ++ e::pre.reverse := by
      rw [← List.reverse_reverse c.epochs,hes]
      simp
    have hmem : e ∈ c.epochs := by
      rw [hsplit]
      exact mem_append_right _ mem_cons_self
    have htakes : TakesIn e (addToPeriod b e first).1 b := by
      refine takesIn_addToPeriod (hs.periods e hmem) first fun b' hb' => ?_
      obtain ⟨hnumber,hlane⟩ := (hs.periods e hmem).placed _ b' hb'
      exact hfree b' ⟨e,hmem,hnumber.symm,hlane.symm ▸ hb'⟩ ⟨hnumber.trans heq,hlane⟩
    refine ⟨post.reverse,e,_,pre.reverse,htakes,heq,?_,hsplit ▸ hs,fun b' => by rw [hsplit]⟩
    simp only [addBlock,hadd]
    simp
  · rw [hfresh.number] at hpre hpost
    have hsplit : c.epochs = post.reverse ++ pre.reverse := by
      rw [← List.reverse_reverse c.epochs,hes]
      simp
    refine ⟨post.reverse,_,_,pre.reverse,hfresh,rfl,?_,⟨fun x hx => ?_,?_⟩,fun b' => ?_⟩
    · simp only [addBlock,hadd]
      simp
    · rcases mem_append.mp hx with hx | hx
      · exact hs.periods x (hsplit ▸ mem_append_left _ hx)
      · rcases mem_cons.mp hx with rfl | hx
        · exact hempty
        · exact hs.periods x (hsplit ▸ mem_append_right _ hx)
    · have hasc := pairwise_append.mp (hsplit ▸ hs.ascending)
      refine pairwise_append.mpr ⟨hasc.1,pairwise_cons.mpr ⟨fun x hx => ?_,hasc.2.1⟩,
        fun x hx y hy => ?_⟩
      · exact hpre x (mem_reverse.mp hx)
      · rcases mem_cons.mp hy with rfl | hy
        · exact hpost x (mem_reverse.mp hx)
        · exact hasc.2.2 x hx y hy
    · rw [hsplit]
      constructor
      · rintro ⟨x,hx,hnumber,hmem⟩
        rcases mem_append.mp hx with hx | hx
        · exact ⟨x,mem_append_left _ hx,hnumber,hmem⟩
        · rcases mem_cons.mp hx with rfl | hx
          · rw [hnone] at hmem
            cases hmem
          · exact ⟨x,mem_append_right _ hx,hnumber,hmem⟩
      · rintro ⟨x,hx,hnumber,hmem⟩
        rcases mem_append.mp hx with hx | hx
        · exact ⟨x,mem_append_left _ hx,hnumber,hmem⟩
        · exact ⟨x,mem_append_right _ (mem_cons_of_mem _ hx),hnumber,hmem⟩

theorem sound_addBlock (hs : Sound c.epochs) (hb : b.epochNumber ≠ noEpoch)
    (hfree : Free c.epochs b) : Sound (c.addBlock b verified).1.epochs := by
  obtain ⟨pre,e,e',post,htakes,hnumber,hepochs,hsound,-⟩ := addBlock_period hs hb hfree verified
  rw [hepochs]
  have hperiods := hsound.periods
  refine ⟨fun x hx => ?_,?_⟩
  · rcases mem_append.mp hx with hx | hx
    · exact hperiods x (mem_append_left _ hx)
    · rcases mem_cons.mp hx with rfl | hx
      · exact htakes.sound (hperiods e (mem_append_right _ mem_cons_self)) hnumber
      · exact hperiods x (mem_append_right _ (mem_cons_of_mem _ hx))
  · obtain ⟨hpre,hpost,hcross⟩ := pairwise_append.mp hsound.ascending
    obtain ⟨hhead,htail⟩ := pairwise_cons.mp hpost
    refine pairwise_append.mpr ⟨hpre,pairwise_cons.mpr ⟨fun x hx => ?_,htail⟩,fun x hx y hy => ?_⟩
    · rw [htakes.number]
      exact hhead x hx
    · rcases mem_cons.mp hy with rfl | hy
      · rw [htakes.number]
        exact hcross x hx e mem_cons_self
      · exact hcross x hx y (mem_cons_of_mem _ hy)

theorem chained_addBlock (hs : Sound c.epochs) (hb : b.epochNumber ≠ noEpoch)
    (hfree : Free c.epochs b) :
    Chained (c.addBlock b verified).1.epochs b' ↔ b' = b ∨ Chained c.epochs b' := by
  obtain ⟨pre,e,e',post,htakes,hnumber,hepochs,-,hchained⟩ := addBlock_period hs hb hfree verified
  rw [hepochs,← hchained b']
  constructor
  · rintro ⟨x,hx,hn,hmem⟩
    rcases mem_append.mp hx with hx | hx
    · exact .inr ⟨x,mem_append_left _ hx,hn,hmem⟩
    · rcases mem_cons.mp hx with rfl | hx
      · rcases (htakes.mem_lane b'.lane).mp hmem with ⟨rfl,-⟩ | hmem
        · exact .inl rfl
        · exact .inr ⟨e,mem_append_right _ mem_cons_self,htakes.number ▸ hn,hmem⟩
      · exact .inr ⟨x,mem_append_right _ (mem_cons_of_mem _ hx),hn,hmem⟩
  · have hin : e' ∈ pre ++ e'::post := mem_append_right _ mem_cons_self
    rintro (rfl | ⟨x,hx,hn,hmem⟩)
    · exact ⟨e',hin,htakes.number.trans hnumber,(htakes.mem b').mpr (.inl rfl)⟩
    · rcases mem_append.mp hx with hx | hx
      · exact ⟨x,mem_append_left _ hx,hn,hmem⟩
      · rcases mem_cons.mp hx with rfl | hx
        · exact ⟨e',hin,htakes.number.trans hn,(htakes.mem_lane _).mpr (.inr hmem)⟩
        · exact ⟨x,mem_append_right _ (mem_cons_of_mem _ hx),hn,hmem⟩

/-! ## The front of a chain -/

theorem Sound.chained_iff (hs : Sound es) (he : e ∈ es) (hn : e.epochNum = b.epochNumber) :
    Chained es b ↔ b ∈ e.lane b.lane := by
  constructor
  · rintro ⟨e',he',hn',hmem⟩
    rwa [hs.eq_of_number he he' (hn'.trans hn.symm)] at hmem
  · exact fun hmem => ⟨e,he,hn,hmem⟩

theorem head?_eq_some_iff {l : List (Block H)}
    (hl : l.Pairwise fun b b' => b.sequence < b'.sequence) :
    l.head? = some b ↔ b ∈ l ∧ ∀ b' ∈ l,b.sequence ≤ b'.sequence := by
  cases l with
  | nil => simp
  | cons x l =>
    have hhead := (pairwise_cons.mp hl).1
    rw [List.head?_cons,Option.some_inj]
    constructor
    · rintro rfl
      refine ⟨mem_cons_self,fun b' hb' => ?_⟩
      rcases mem_cons.mp hb' with rfl | hb'
      · exact BitVec.le_refl _
      · exact BitVec.le_of_lt (hhead b' hb')
    · rintro ⟨hmem,hleast⟩
      rcases mem_cons.mp hmem with rfl | hmem
      · rfl
      · have hle := hleast x mem_cons_self
        have hlt := hhead b hmem
        bv_omega

/-- The first block of a chain is the one with the least number. -/
theorem atFront_iff (hs : Sound es) :
    AtFront es b ↔
      Chained es b ∧ ∀ b',Chained es b' → SameChain b' b → b.sequence ≤ b'.sequence := by
  constructor
  · rintro ⟨e,he,hn,hhead⟩
    obtain ⟨hmem,hleast⟩ := (head?_eq_some_iff ((hs.periods e he).ordered b.lane)).mp hhead
    refine ⟨⟨e,he,hn,hmem⟩,fun b' hb' hchain => hleast b' ?_⟩
    rw [← hchain.2]
    exact (hs.chained_iff he (hn.trans hchain.1.symm)).mp hb'
  · rintro ⟨⟨e,he,hn,hmem⟩,hleast⟩
    refine ⟨e,he,hn,(head?_eq_some_iff ((hs.periods e he).ordered b.lane)).mpr ⟨hmem,?_⟩⟩
    intro b' hb'
    obtain ⟨hnumber,hlane⟩ := (hs.periods e he).placed _ b' hb'
    exact hleast b' ⟨e,he,hnumber.symm,hlane.symm ▸ hb'⟩ ⟨hnumber.trans hn,hlane⟩

/-- An epoch block that is alone in its period is taken away with it, and no other block. -/
theorem chained_removeFront_epoch {p : Block H} (hp : Chained es p) (hepoch : p.isEpoch = true)
    (halone : ∀ b,Chained es b → b.epochNumber = p.epochNumber → b = p) :
    Chained (removeFront es p) b ↔ Chained es b ∧ b ≠ p := by
  constructor
  · intro h
    refine ⟨chained_of_removeFront h,?_⟩
    rintro rfl
    obtain ⟨e,he,hn,-⟩ := h
    obtain ⟨e',-,hmap⟩ := List.mem_filterMap.mp he
    split at hmap
    · cases hmap
    · next hne =>
      cases hmap
      exact hne hn
  · rintro ⟨⟨e,he,hn,hmem⟩,hne⟩
    refine ⟨e,List.mem_filterMap.mpr ⟨e,he,if_neg fun heq => ?_⟩,hn,hmem⟩
    exact hne (halone b ⟨e,he,hn,hmem⟩ (hn.symm.trans heq))

/-! ## All blocks -/

def EpochPeriod.blocks (e : EpochPeriod H) : List (Block H) :=
  (List.finRange numDelegates).flatMap (fun d => e.lane (.request d)) ++ e.lane .micro ++
    e.lane .epoch

theorem EpochPeriod.mem_blocks {e : EpochPeriod H} {b : Block H} :
    b ∈ e.blocks ↔ ∃ l,b ∈ e.lane l := by
  simp only [blocks,mem_append,List.mem_flatMap,List.mem_finRange,true_and]
  constructor
  · rintro ((⟨d,h⟩ | h) | h)
    · exact ⟨_,h⟩
    · exact ⟨_,h⟩
    · exact ⟨_,h⟩
  · rintro ⟨l,h⟩
    cases l with
    | request d => exact .inl (.inl ⟨d,h⟩)
    | micro => exact .inl (.inr h)
    | epoch => exact .inr h

namespace Container

def blocks (c : Container H) : List (Block H) := c.epochs.flatMap EpochPeriod.blocks

theorem mem_blocks {c : Container H} {b : Block H} (hs : Sound c.epochs) :
    b ∈ c.blocks ↔ Chained c.epochs b := by
  simp only [blocks,List.mem_flatMap,EpochPeriod.mem_blocks]
  constructor
  · rintro ⟨e,he,l,hb⟩
    obtain ⟨hnumber,hlane⟩ := (hs.periods e he).placed l b hb
    exact ⟨e,he,hnumber.symm,hlane.symm ▸ hb⟩
  · rintro ⟨e,he,-,hb⟩
    exact ⟨e,he,_,hb⟩

end Container

end Chains

end LogosCore.Cache
