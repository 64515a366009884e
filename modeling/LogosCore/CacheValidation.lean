import LogosCore.PendingChains

/-! # The validation loop of the block cache

`Validate` takes blocks that are ready one after the other. A good one goes to the write queue, any
other waits for what its validation is missing, unless the history of recent writes has all of it:
then it is ready at once again. -/
namespace LogosCore.Cache

open Finset Option

open Ledger (ProcessResult Request)
open Archive (numDelegates)

/-- Why a block is refused, and each of its requests or tips. -/
structure Refusal where
  reason : ProcessResult
  requests : ℕ → ProcessResult

section Validation

variable {H : Type} [DecidableEq H]

namespace Container

def waitFor (c : Container H) (hashes : List H) (b : H) : Container H :=
  hashes.foldl (fun c hash => c.addHashDependency hash b) c

/-- The contents of a block that comes from consensus are not validated again. -/
def verdict (c : Container H) (verify : Block H → Option Refusal) (b : Block H) : Option Refusal :=
  if (c.pending b.hash).directWrite then none else verify b

/-- What `Validate` does with a block, and whether it was good; `none` where the node halts. -/
def treat (c : Container H) (verify : Block H → Option Refusal) (b : Block H) :
    Option (Container H × Bool) :=
  match c.verdict verify b with
  | none => some ((c.storeBlock b).blockDelete b.hash,true)
  | some refusal =>
    (b.dependencies refusal.reason refusal.requests).map fun hashes =>
      (c.waitFor hashes b.hash,false)

/-- The loop of `Validate`: `none` at the limit of its iterations, `some none` where the node
halts. -/
def validate (verify : Block H → Option Refusal) : ℕ → Container H → Option (Block H) →
    Fin numDelegates → Bool → Option (Option (Container H))
  | 0,_,_,_,_ => none
  | n+1,c,ptr,idx,success =>
    match c.getNextBlock ptr idx success with
    | none => some none
    | some (c,none) => some (some c)
    | some (c,some (b,idx)) =>
      match c.treat verify b with
      | none => some none
      | some (c,success) => validate verify n c (some b) idx success

/-- A block that is refused for nothing that the history of writes has not. -/
def Stuck (verify : Block H → Option Refusal) (recent : List H) (b : Block H) : Prop :=
  ∃ refusal,verify b = some refusal ∧ ∃ hashes,
    b.dependencies refusal.reason refusal.requests = some hashes ∧ ∀ hash ∈ hashes,hash ∈ recent

end Container

/-! ## The blocks that are open -/

namespace Container

def openBlocks (c : Container H) : Finset (Block H) :=
  c.blocks.toFinset.filter fun b => (c.pending b.hash).reliances = ∅

variable {c c' : Container H} {verify : Block H → Option Refusal} {b : Block H}
  {ptr : Option (Block H)} {idx idx' : Fin numDelegates} {success : Bool} {n : ℕ}

theorem mem_openBlocks (hs : Sound c.epochs) :
    b ∈ c.openBlocks ↔ Chained c.epochs b ∧ (c.pending b.hash).reliances = ∅ := by
  rw [openBlocks,mem_filter,List.mem_toFinset,mem_blocks hs]

@[simp] theorem reliances_setLock (hash hash' : H) (lock : Bool) :
    ((c.setLock hash lock).pending hash').reliances = (c.pending hash').reliances := by
  simp only [setLock,setPending,Function.update_apply]
  split
  · next h => rw [h]
  · rfl

@[simp] theorem directWrite_setLock (hash hash' : H) (lock : Bool) :
    ((c.setLock hash lock).pending hash').directWrite = (c.pending hash').directWrite := by
  simp only [setLock,setPending,Function.update_apply]
  split
  · next h => rw [h]
  · rfl

theorem addHashDependency_recent {hash : H} {b : H} (h : hash ∈ c.recentDBWrites) :
    c.addHashDependency hash b = c := by
  simp [addHashDependency,addDependency,h]

theorem addHashDependency_new {hash : H} {b : H} (h : hash ∉ c.recentDBWrites) :
    ((c.addHashDependency hash b).pending b).reliances = insert hash (c.pending b).reliances := by
  simp [addHashDependency,addDependency,h,addReliance,setPending]

theorem waitFor_cons (hash : H) (hashes : List H) (b : H) :
    c.waitFor (hash::hashes) b = (c.addHashDependency hash b).waitFor hashes b := rfl

/-- A block that is put to wait changes in nothing but what it waits for. -/
structure Waits (c c' : Container H) : Prop where
  epochs : c'.epochs = c.epochs
  recent : c'.recentDBWrites = c.recentDBWrites
  direct : ∀ hash,(c'.pending hash).directWrite = (c.pending hash).directWrite
  reliances : ∀ hash,(c.pending hash).reliances ⊆ (c'.pending hash).reliances

theorem Waits.trans {c'' : Container H} (h : Waits c c') (h' : Waits c' c'') : Waits c c'' :=
  ⟨h'.epochs.trans h.epochs,h'.recent.trans h.recent,
    fun hash => (h'.direct hash).trans (h.direct hash),
    fun hash => (h.reliances hash).trans (h'.reliances hash)⟩

theorem waits_addHashDependency (hash b : H) : Waits c (c.addHashDependency hash b) := by
  by_cases h : hash ∈ c.recentDBWrites
  · rw [addHashDependency_recent h]
    exact ⟨rfl,rfl,fun _ => rfl,fun _ => Finset.Subset.refl _⟩
  · simp only [addHashDependency,addDependency,h,if_false,addReliance,setPending]
    refine ⟨rfl,rfl,fun hash' => ?_,fun hash' => ?_⟩
    · by_cases hb : hash' = b
      · subst hb
        simp
      · simp [hb]
    · by_cases hb : hash' = b
      · subst hb
        simp
      · simp [hb]

theorem waits_waitFor (hashes : List H) (b : H) : Waits c (c.waitFor hashes b) := by
  induction hashes generalizing c with
  | nil => exact ⟨rfl,rfl,fun _ => rfl,fun _ => Finset.Subset.refl _⟩
  | cons hash hashes ih =>
    exact (waits_addHashDependency hash b).trans ih

theorem waitFor_recent {hashes : List H} {b : H} (h : ∀ hash ∈ hashes,hash ∈ c.recentDBWrites) :
    c.waitFor hashes b = c := by
  induction hashes with
  | nil => rfl
  | cons hash hashes ih =>
    rw [waitFor_cons,addHashDependency_recent (h hash List.mem_cons_self)]
    exact ih fun hash' hmem => h hash' (List.mem_cons_of_mem _ hmem)

theorem waitFor_closes {hashes : List H} {b hash : H} (hmem : hash ∈ hashes)
    (h : hash ∉ c.recentDBWrites) : ((c.waitFor hashes b).pending b).reliances ≠ ∅ := by
  induction hashes generalizing c with
  | nil => cases hmem
  | cons hash' hashes ih =>
    rcases List.mem_cons.mp hmem with rfl | hmem
    · have hin : hash ∈ ((c.addHashDependency hash b).pending b).reliances := by
        rw [addHashDependency_new h]
        exact mem_insert_self _ _
      exact ne_empty_of_mem ((waits_waitFor hashes b).reliances b hin)
    · apply ih hmem
      rwa [(waits_addHashDependency hash' b).recent]

/-! ## One iteration -/

structure Asks (c : Container H) (ptr : Option (Block H)) : Prop where
  sound : Sound c.epochs
  front : ∀ p ∈ ptr,AtFront c.epochs p

theorem sound_giveBack (h : Asks c ptr) (success : Bool) :
    Sound (c.giveBack ptr success).epochs := by
  cases ptr with
  | none => exact h.sound
  | some p =>
    simp only [giveBack]
    split
    · exact h.sound.removeFront p
    · exact h.sound

theorem chained_giveBack (h : Chained (c.giveBack ptr success).epochs b) : Chained c.epochs b := by
  cases ptr with
  | none => exact h
  | some p =>
    simp only [giveBack] at h
    split at h
    · exact chained_of_removeFront h
    · exact h

theorem not_chained_giveBack {p : Block H} (h : Asks c (some p)) :
    ¬ Chained (c.giveBack (some p) true).epochs p := by
  simp only [giveBack,if_true]
  cases hepoch : p.isEpoch with
  | false =>
    rw [chained_removeFront h.sound (h.front p rfl) hepoch]
    exact fun hp => hp.2 rfl
  | true =>
    rintro ⟨e,he,hnumber,-⟩
    obtain ⟨e',-,hmap⟩ := List.mem_filterMap.mp he
    split at hmap
    · cases hmap
    · next hne =>
      cases hmap
      exact hne hnumber

theorem reliances_giveBack (hash : H) :
    ((c.giveBack ptr success).pending hash).reliances = (c.pending hash).reliances := by
  cases ptr with
  | none => rfl
  | some p => exact reliances_setLock p.hash hash false

theorem directWrite_giveBack (hash : H) :
    ((c.giveBack ptr success).pending hash).directWrite = (c.pending hash).directWrite := by
  cases ptr with
  | none => rfl
  | some p => exact directWrite_setLock p.hash hash false

theorem recent_giveBack : (c.giveBack ptr success).recentDBWrites = c.recentDBWrites := by
  cases ptr <;> rfl

theorem openBlocks_giveBack (h : Asks c ptr) :
    (c.giveBack ptr success).openBlocks ⊆ c.openBlocks := by
  intro b hb
  rw [mem_openBlocks (sound_giveBack h success)] at hb
  rw [mem_openBlocks h.sound]
  exact ⟨chained_giveBack hb.1,(reliances_giveBack b.hash).symm.trans hb.2⟩

/-- The blocks that are open once the thread has given its block back. -/
def work (c : Container H) (ptr : Option (Block H)) (success : Bool) : Finset (Block H) :=
  (c.giveBack ptr success).openBlocks

/-- The chains and the histories that an iteration leaves as they are. -/
structure Keeps (c c' : Container H) : Prop where
  chains : ∀ b,Chained c'.epochs b → Chained c.epochs b
  recent : c'.recentDBWrites = c.recentDBWrites
  direct : ∀ hash,(c'.pending hash).directWrite = (c.pending hash).directWrite

/-- A good block is open no more after it is given back. -/
theorem work_good (hs : Sound c.epochs) (hfront : AtFront c.epochs b)
    (hb : (c.pending b.hash).reliances = ∅) :
    work ((c.storeBlock b).blockDelete b.hash) (some b) true ⊂ c.openBlocks := by
  have hasks : Asks ((c.storeBlock b).blockDelete b.hash) (some b) :=
    ⟨hs,fun p hp => some_inj.mp hp ▸ hfront⟩
  refine (ssubset_iff_of_subset (openBlocks_giveBack hasks)).mpr ⟨b,?_,fun hmem => ?_⟩
  · exact (mem_openBlocks hs).mpr ⟨hfront.chained,hb⟩
  · exact not_chained_giveBack hasks ((mem_openBlocks (sound_giveBack hasks true)).mp hmem).1

/-- A block that waits is open no more. -/
theorem work_refused (hs : Sound c.epochs) (hfront : AtFront c.epochs b)
    (hb : (c.pending b.hash).reliances = ∅) {hashes : List H} {hash : H} (hmem : hash ∈ hashes)
    (hnew : hash ∉ c.recentDBWrites) :
    work (c.waitFor hashes b.hash) (some b) false ⊂ c.openBlocks := by
  have hwaits := waits_waitFor (c := c) hashes b.hash
  have hs' : Sound (c.waitFor hashes b.hash).epochs := hwaits.epochs.symm ▸ hs
  have hasks : Asks (c.waitFor hashes b.hash) (some b) :=
    ⟨hs',fun p hp => some_inj.mp hp ▸ hwaits.epochs.symm ▸ hfront⟩
  have hsub : (c.waitFor hashes b.hash).openBlocks ⊆ c.openBlocks := by
    intro b' hb'
    obtain ⟨hchained,hempty⟩ := (mem_openBlocks hs').mp hb'
    refine (mem_openBlocks hs).mpr ⟨hwaits.epochs ▸ hchained,?_⟩
    exact subset_empty.mp (hempty ▸ hwaits.reliances b'.hash)
  refine (ssubset_iff_of_subset ((openBlocks_giveBack hasks).trans hsub)).mpr
    ⟨b,?_,fun hopen => ?_⟩
  · exact (mem_openBlocks hs).mpr ⟨hfront.chained,hb⟩
  · have hclosed := (mem_openBlocks hs').mp (openBlocks_giveBack hasks hopen)
    exact waitFor_closes hmem hnew hclosed.2

/-- An iteration asks for the next block, with less work left unless its block is stuck. -/
theorem treat_spec (hs : Sound c.epochs) (hfront : AtFront c.epochs b)
    (hb : (c.pending b.hash).reliances = ∅)
    (hstuck : (c.pending b.hash).directWrite = false → ¬ Stuck verify c.recentDBWrites b)
    (h : c.treat verify b = some (c',success)) :
    Asks c' (some b) ∧ Keeps c c' ∧ work c' (some b) success ⊂ c.openBlocks := by
  have hsome : ∀ p ∈ some b,AtFront c.epochs p := fun p hp => some_inj.mp hp ▸ hfront
  unfold treat at h
  split at h
  · cases h
    exact ⟨⟨hs,hsome⟩,⟨fun _ h => h,rfl,fun _ => rfl⟩,work_good hs hfront hb⟩
  · next refusal hverdict =>
    obtain ⟨hashes,hdeps,heq⟩ := map_eq_some_iff.mp h
    cases heq
    have hwaits := waits_waitFor (c := c) hashes b.hash
    have hnew : ∃ hash ∈ hashes,hash ∉ c.recentDBWrites := by
      unfold verdict at hverdict
      split at hverdict
      · cases hverdict
      · next hdirect =>
        by_contra hall
        push Not at hall
        exact hstuck (Bool.not_eq_true _ ▸ hdirect) ⟨refusal,hverdict,hashes,hdeps,hall⟩
    obtain ⟨hash,hmem,hnot⟩ := hnew
    refine ⟨⟨hwaits.epochs.symm ▸ hs,hwaits.epochs.symm ▸ hsome⟩,?_,
      work_refused hs hfront hb hmem hnot⟩
    exact ⟨fun _ h => hwaits.epochs ▸ h,hwaits.recent,hwaits.direct⟩

/-- Where no cached block is stuck, the loop makes no more iterations than there are open blocks. -/
theorem validate_isSome (hasks : Asks c ptr)
    (hstuck : ∀ b,Chained c.epochs b → (c.pending b.hash).directWrite = false →
      ¬ Stuck verify c.recentDBWrites b)
    (hn : (work c ptr success).card < n) : (validate verify n c ptr idx success).isSome := by
  induction n generalizing c ptr idx success with
  | zero => exact absurd hn (Nat.not_lt_zero _)
  | succ n ih =>
    unfold validate
    split
    · rfl
    · rfl
    · next c1 b idx' hnext =>
      obtain ⟨hlock,hfront,hready⟩ := getNextBlock_spec hasks.sound hasks.front hnext
      have hepochs : c1.epochs = (c.giveBack ptr success).epochs := by
        rw [hlock]
        rfl
      have hrecent : c1.recentDBWrites = c.recentDBWrites := by
        rw [hlock]
        exact recent_giveBack
      have hempty : (c1.pending b.hash).reliances = ∅ := by
        rw [hlock,reliances_setLock]
        exact of_decide_eq_true (Bool.and_eq_true_iff.mp hready).1
      have hopen : c1.openBlocks = work c ptr success := by
        simp only [hlock,work,openBlocks,blocks,reliances_setLock]
        rfl
      have hstuck1 : ∀ b',Chained c1.epochs b' → (c1.pending b'.hash).directWrite = false →
          ¬ Stuck verify c1.recentDBWrites b' := by
        intro b' hb' hdirect
        rw [hlock,directWrite_setLock,directWrite_giveBack] at hdirect
        rw [hrecent]
        exact hstuck b' (chained_giveBack (hepochs ▸ hb')) hdirect
      split
      · rfl
      · next c2 success' htreat =>
        rw [← hepochs] at hfront
        have hs1 : Sound c1.epochs := hepochs.symm ▸ sound_giveBack hasks success
        obtain ⟨hasks',hkeeps,hless⟩ := treat_spec hs1 hfront hempty
          (hstuck1 b hfront.chained) htreat
        apply ih hasks'
        · intro b' hb' hdirect
          rw [hkeeps.recent]
          exact hstuck1 b' (hkeeps.chains b' hb') (hkeeps.direct b'.hash ▸ hdirect)
        · have hcard := card_lt_card hless
          rw [hopen] at hcard
          omega

/-! ## A block that is alone -/

/-- The cache with nothing but one block, which is not from consensus. -/
def alone (recent : List H) (b : Block H) : Container H :=
  { ((empty ∅).addBlock b false).1 with recentDBWrites := recent }

def lonely (b : Block H) : EpochPeriod H := (addToPeriod b (.empty b.epochNumber) true).1

theorem lonely_epochNum (b : Block H) : (lonely b).epochNum = b.epochNumber := by
  cases b <;> rfl

theorem lane_lonely (b : Block H) (l : Lane) :
    (lonely b).lane l = if l = b.lane then [b] else [] := by
  cases b with
  | request r =>
    cases l with
    | request d =>
      by_cases hd : d = r.primaryDelegate
      · subst hd
        simp [lonely,addToPeriod,EpochPeriod.lane,EpochPeriod.empty,insertChain,insertBack,
          Block.lane]
      · simp [lonely,addToPeriod,EpochPeriod.lane,EpochPeriod.empty,Block.lane,hd]
    | micro => rfl
    | epoch => rfl
  | micro m => cases l <;> rfl
  | epoch e => cases l <;> rfl

theorem sound_lonely (hb : b.epochNumber ≠ noEpoch) : (lonely b).Sound := by
  refine ⟨(lonely_epochNum b).symm ▸ hb,fun l b' hb' => ?_,fun l => ?_⟩
  · rw [lane_lonely] at hb'
    split at hb'
    · next hl =>
      rw [List.mem_singleton.mp hb']
      exact ⟨(lonely_epochNum b).symm,hl.symm⟩
    · cases hb'
  · rw [lane_lonely]
    split
    · exact List.pairwise_singleton _ _
    · exact List.Pairwise.nil

theorem sound_alone (hb : b.epochNumber ≠ noEpoch) (recent : List H) :
    Sound (alone recent b).epochs := by
  refine ⟨fun e he => ?_,List.pairwise_singleton _ _⟩
  rw [List.mem_singleton.mp he]
  exact sound_lonely hb

theorem eq_of_front_lonely {b' : Block H} (h : ((lonely b).lane b'.lane).head? = some b') :
    b' = b := by
  rw [lane_lonely] at h
  split at h
  · exact (some_inj.mp h).symm
  · cases h

theorem readyRequest_reaches {rbs : Fin numDelegates → List (RequestBlock H)} {r : RequestBlock H}
    (hready : c.ready r.hash = true) {k : ℕ} (hk : k < n)
    (hhead : (rbs (idx + Fin.ofNat numDelegates k)).head? = some r) :
    (c.readyRequest rbs n idx).isSome := by
  induction n generalizing idx k with
  | zero => exact absurd hk (Nat.not_lt_zero _)
  | succ n ih =>
    have hlater : (∀ r',(rbs idx).head? = some r' → c.ready r'.hash = false) →
        (c.readyRequest rbs n (idx + 1)).isSome := by
      intro hnot
      cases k with
      | zero =>
        rw [show idx + Fin.ofNat numDelegates 0 = idx from add_zero idx] at hhead
        rw [hnot r hhead] at hready
        cases hready
      | succ k =>
        apply ih (Nat.lt_of_succ_lt_succ hk)
        rw [← hhead]
        congr 2
        apply Fin.ext
        simp only [Fin.val_add,Fin.ofNat,Fin.val_one,numDelegates]
        omega
    unfold readyRequest
    split
    · next r' hr' =>
      split
      · rfl
      · next hnot =>
        apply hlater
        intro r'' hr''
        rw [hr',some_inj] at hr''
        exact hr'' ▸ Bool.not_eq_true _ ▸ hnot
    · next hnone =>
      apply hlater
      intro r' hr'
      rw [hnone] at hr'
      cases hr'

theorem readyRequest_isSome {rbs : Fin numDelegates → List (RequestBlock H)} {r : RequestBlock H}
    {d : Fin numDelegates} (hready : c.ready r.hash = true) (hhead : (rbs d).head? = some r) :
    (c.readyRequest rbs numDelegates idx).isSome := by
  apply readyRequest_reaches hready (d - idx).isLt
  rw [← hhead]
  congr 2
  rw [Fin.ofNat_val_eq_self]
  exact add_sub_cancel idx d

/-- A ready block that is alone is offered to a thread that holds nothing or this block. -/
theorem offer_lonely (hready : c.ready b.hash = true) (hb : b.epochNumber ≠ noEpoch)
    (hptr : ptr = none ∨ ptr = some b) (idx : Fin numDelegates) :
    ∃ idx',c.offer (lonely b) ptr idx (lonely b).mbs.isEmpty = some (b,idx') := by
  have hoffered : (c.offer (lonely b) ptr idx (lonely b).mbs.isEmpty).isSome := by
    unfold offer
    cases b with
    | request r =>
      have hhead : ((lonely (.request r)).rbs r.primaryDelegate).head? = some r := by
        simp [lonely,addToPeriod,EpochPeriod.empty,insertChain,insertBack]
      have hfound : (c.readyRequest (lonely (.request r)).rbs numDelegates idx).isSome :=
        readyRequest_isSome hready hhead
      obtain ⟨q,hq⟩ := isSome_iff_exists.mp hfound
      rcases hptr with rfl | rfl <;> simp [hq]
    | micro m =>
      have hhead : (lonely (.micro m)).mbs = [m] := rfl
      have hm : c.ready m.hash = true := hready
      rcases hptr with rfl | rfl <;> simp [hhead,hm]
    | epoch e =>
      have hmbs : (lonely (.epoch e)).mbs = [] := rfl
      have heb : (lonely (.epoch e)).eb = some e := rfl
      have hm : c.ready e.hash = true := hready
      rcases hptr with rfl | rfl <;> simp [hmbs,heb,hm]
  obtain ⟨⟨b',idx'⟩,hfound⟩ := isSome_iff_exists.mp hoffered
  have hb' := eq_of_front_lonely (offer_spec (sound_lonely hb) hfound).2.1
  exact ⟨idx',hb' ▸ hfound⟩

/-- What holds of a cache in which a block is alone and is tried again and again. -/
structure Loops (recent : List H) (b : Block H) (ptr : Option (Block H)) (c : Container H) :
    Prop where
  epochs : c.epochs = [lonely b]
  recent : c.recentDBWrites = recent
  reliances : (c.pending b.hash).reliances = ∅
  direct : (c.pending b.hash).directWrite = false
  holds : ptr = none ∧ (c.pending b.hash).lock = false ∨ ptr = some b

theorem search_lonely (hready : c.ready b.hash = true) (hb : b.epochNumber ≠ noEpoch)
    {wanted : Ledger.Epoch} (hwanted : wanted = noEpoch ∨ wanted = b.epochNumber)
    (hptr : ptr = none ∨ ptr = some b) (idx : Fin numDelegates) :
    ∃ idx',search c false [] [lonely b] ptr wanted idx =
      some ({ c.setLock b.hash true with epochs := [lonely b] },some (b,idx')) := by
  obtain ⟨idx',hoffer⟩ := offer_lonely hready hb hptr idx
  have hhere : ¬ (wanted ≠ noEpoch ∧ (lonely b).epochNum ≠ wanted) := by
    rintro ⟨hne,hother⟩
    rcases hwanted with rfl | rfl
    · exact hne rfl
    · exact hother (lonely_epochNum b)
  have hlast : lastSettled ptr false = false := by
    rcases hptr with rfl | rfl
    · rfl
    · cases b <;> rfl
  rw [search,if_neg hhere]
  simp [settle_failed,hlast,hoffer]

/-- The block is found and locked again. -/
theorem Loops.getNextBlock {recent : List H} (h : Loops recent b ptr c)
    (hb : b.epochNumber ≠ noEpoch) (idx : Fin numDelegates) :
    ∃ c' idx',c.getNextBlock ptr idx false = some (c',some (b,idx')) ∧
      Loops recent b (some b) c' := by
  have hnext : ∀ c0 : Container H,(c0 = c ∨ c0 = c.setLock b.hash false) →
      Loops recent b (some b) { c0.setLock b.hash true with epochs := [lonely b] } := by
    rintro c0 (rfl | rfl)
    · exact ⟨rfl,h.recent,(reliances_setLock _ _ _).trans h.reliances,
        (directWrite_setLock _ _ _).trans h.direct,.inr rfl⟩
    · refine ⟨rfl,h.recent,?_,?_,.inr rfl⟩
      · simp only [reliances_setLock,h.reliances]
      · simp only [directWrite_setLock,h.direct]
  rcases h.holds with ⟨rfl,hlock⟩ | rfl
  · have hready : c.ready b.hash = true := by simp [ready,h.reliances,hlock]
    obtain ⟨idx',hsearch⟩ := search_lonely hready hb (.inl rfl) (.inl rfl) idx
    exact ⟨_,idx',by rw [Container.getNextBlock,h.epochs,hsearch],hnext c (.inl rfl)⟩
  · have hready : (c.setLock b.hash false).ready b.hash = true := by
      simp only [ready,reliances_setLock,h.reliances]
      simp [setLock,setPending]
    obtain ⟨idx',hsearch⟩ := search_lonely hready hb (.inr rfl) (.inr rfl) (startIndex idx b)
    exact ⟨_,idx',by rw [Container.getNextBlock,h.epochs,hsearch],hnext _ (.inr rfl)⟩

/-- A stuck block is not put to wait. -/
theorem Loops.treat {recent : List H} (h : Loops recent b ptr c) (hstuck : Stuck verify recent b) :
    c.treat verify b = some (c,false) := by
  obtain ⟨refusal,hverify,hashes,hdeps,hall⟩ := hstuck
  have hverdict : c.verdict verify b = some refusal := by
    rw [verdict,h.direct]
    exact hverify
  have hwait : c.waitFor hashes b.hash = c :=
    waitFor_recent fun hash hmem => h.recent.symm ▸ hall hash hmem
  rw [Container.treat,hverdict]
  simp [hdeps,hwait]

/-- The loop does not end where a stuck block is alone. -/
theorem Loops.validate {recent : List H} (h : Loops recent b ptr c)
    (hb : b.epochNumber ≠ noEpoch) (hstuck : Stuck verify recent b) :
    validate verify n c ptr idx false = none := by
  induction n generalizing c ptr idx with
  | zero => rfl
  | succ n ih =>
    obtain ⟨c',idx',hnext,hloops⟩ := h.getNextBlock hb idx
    rw [Container.validate,hnext]
    simp only [hloops.treat hstuck]
    exact ih hloops

theorem loops_alone (recent : List H) (b : Block H) : Loops recent b none (alone recent b) :=
  ⟨rfl,rfl,by simp [alone,addBlock],by simp [alone,addBlock],.inl ⟨rfl,by simp [alone,addBlock]⟩⟩

theorem chained_alone {recent : List H} {b b' : Block H} (h : Chained (alone recent b).epochs b') :
    b' = b := by
  obtain ⟨e,he,-,hb'⟩ := h
  rw [List.mem_singleton.mp he] at hb'
  have hlane := lane_lonely b b'.lane
  rw [lonely] at hlane
  rw [hlane] at hb'
  split at hb'
  · exact List.mem_singleton.mp hb'
  · cases hb'

/-- With given outcomes and a given history, each call of `Validate` ends exactly if none of the
blocks is refused for nothing but what the history has. -/
theorem validate_ends_iff (verify : Block H → Option Refusal) (recent : List H)
    (blocks : Set (Block H)) :
    (∀ (c : Container H) (idx : Fin numDelegates),Sound c.epochs →
      (∀ b,Chained c.epochs b → b ∈ blocks) → c.recentDBWrites = recent →
      ∃ n,(validate verify n c none idx false).isSome) ↔
    ∀ b ∈ blocks,b.epochNumber ≠ noEpoch → ¬ Stuck verify recent b := by
  constructor
  · intro hends b hmem hb hstuck
    obtain ⟨n,hn⟩ := hends (alone recent b) 0 (sound_alone hb recent)
      (fun b' hb' => chained_alone hb' ▸ hmem) rfl
    rw [(loops_alone recent b).validate hb hstuck] at hn
    cases hn
  · intro hnone c idx hs hblocks hrecent
    refine ⟨(work c none false).card + 1,?_⟩
    apply validate_isSome ⟨hs,fun p hp => by cases hp⟩ ?_ (Nat.lt_succ_self _)
    intro b hchained _
    rw [hrecent]
    apply hnone b (hblocks b hchained)
    obtain ⟨e,he,hnumber,-⟩ := hchained
    exact hnumber ▸ (hs.periods e he).number

end Container

end Validation

namespace Container

def starved : Block ℕ :=
  .request ⟨10,3,0,0,9,[⟨1,5,10,0,0,0,.send [⟨2,100⟩]⟩]⟩

def refuseStarved : Block ℕ → Option Refusal :=
  fun _ => some ⟨.invalidRequest,fun _ => .insufficientBalance⟩

/-- Another block keeps account 1 in the history, so the block is validated again and again. -/
theorem starved_loops : Sound (alone [1] starved).epochs ∧
    starved.dependencies .invalidRequest (fun _ => .insufficientBalance) = some [1] ∧
    ∀ n,validate refuseStarved n (alone [1] starved) none 0 false = none := by
  have hnumber : starved.epochNumber ≠ noEpoch := by decide
  have hdeps : starved.dependencies .invalidRequest (fun _ => .insufficientBalance) = some [1] := by
    decide
  refine ⟨sound_alone hnumber [1],hdeps,fun n => ?_⟩
  exact (loops_alone [1] starved).validate hnumber
    ⟨_,rfl,[1],hdeps,fun hash hmem => hmem⟩

end Container

end LogosCore.Cache
