import LogosCore.CacheThreads

/-! # Blocks leave the cache once and in order

The threads do to the chains what the workers of a shelf do, as long as each block that arrives has
a place of its own behind the blocks that are taken. -/
namespace LogosCore.Cache

open Function Option

open Ledger (Request)
open Archive (numDelegates)
open Relation (ReflTransGen)
open Worklist (Orderly)

section Order

variable {H ω : Type} [DecidableEq H] [DecidableEq ω]

abbrev Shelves (S S' : Worklist.Shelf (Block H) H ω) : Prop :=
  ReflTransGen (Worklist.Step keys requestChains) S S'

namespace Container

variable {c c' : Container H} {b : Block H} {hash hash' : H} {lock : Bool}

theorem lock_setLock :
    ((c.setLock hash lock).pending hash').lock =
      if hash' = hash then lock else (c.pending hash').lock := by
  simp only [setLock,setPending,update_apply]
  split <;> rfl

theorem lock_setReliances (reliances : Finset H) :
    ((c.setPending hash { c.pending hash with reliances := reliances }).pending hash').lock =
      (c.pending hash').lock := by
  simp only [setPending,update_apply]
  split
  · next h => rw [h]
  · rfl

theorem sameShelf_addDependency : SameShelf c (c.addDependency hash hash').1 := by
  unfold addDependency
  split <;> exact ⟨rfl,rfl,fun _ => Iff.rfl,rfl,fun _ => rfl⟩

theorem sameShelf_addReliance : SameShelf c (c.addReliance hash hash') :=
  ⟨rfl,rfl,fun _ => Iff.rfl,rfl,fun _ => lock_setReliances _⟩

theorem sameShelf_deleteHashDependencies : SameShelf c (c.deleteHashDependencies hash).1 :=
  ⟨rfl,rfl,fun _ => Iff.rfl,rfl,fun _ => rfl⟩

theorem SameShelf.refl (c : Container H) : SameShelf c c :=
  ⟨rfl,rfl,fun _ => Iff.rfl,rfl,fun _ => rfl⟩

theorem sameShelf_markForRevalidation (chains : List H) :
    SameShelf c (c.markForRevalidation hash chains) := by
  induction chains generalizing c with
  | nil => exact ⟨rfl,rfl,fun _ => Iff.rfl,rfl,fun _ => rfl⟩
  | cons b chains ih =>
    have hrest := ih (c := c.setPending b
      { c.pending b with reliances := (c.pending b).reliances.erase hash })
    exact ⟨hrest.epochs,hrest.cached,hrest.present,hrest.handed,
      fun hash' => (hrest.locks hash').trans (lock_setReliances _)⟩

theorem sameShelf_writeBlock (h : c.writeBlock = some (c',b)) : SameShelf c c' := by
  unfold writeBlock at h
  split at h
  · next b' queue hqueue =>
    cases h
    refine ⟨rfl,rfl,fun hash => ?_,rfl,fun _ => rfl⟩
    simp only [hqueue,Finset.mem_insert,List.map_cons,List.mem_cons]
    tauto
  · cases h

end Container

namespace Node

variable {s s' : Node H ω} {c : Container H} {b : Block H} {thread : ω} {ptr : Option (Block H)}
  {idx : Fin numDelegates} {success : Bool} {found : Option (Block H × Fin numDelegates)}

structure Tidy (s : Node H ω) : Prop where
  sound : Sound s.container.epochs
  orderly : Orderly keys requestChains s.shelf

variable {phase : Phase H}

theorem shelf_after :
    (s.after c thread phase).shelf = { { s with container := c }.shelf with
        roles := Function.update (Phase.role ∘ s.threads) thread phase.role } := by
  rw [after,shelf,roles_setPhase]
  rfl

/-- A block that is held is at the front of its chain. -/
theorem Tidy.atFront (h : s.Tidy) (hheld : (s.threads thread).role.held = some b) :
    AtFront s.container.epochs b := by
  obtain ⟨hmem,-,hleast⟩ := h.orderly.held thread b hheld
  refine (atFront_iff h.sound).mpr ⟨hmem,fun b' hb' hchain => ?_⟩
  exact hleast b' hb' (Prod.ext hchain.1 hchain.2)

theorem fits_shelf (hs : Sound s.container.epochs) (h : s.container.Fits b) :
    Worklist.Fits keys requestChains s.shelf b := by
  obtain ⟨-,hplace,hlater⟩ := h
  refine ⟨fun b' hb' hchain hrank => ?_,fun b' hb' hchain hlock => ?_,
    fun hstrict b' hb' hchain => ?_⟩
  · have hthis := hplace b' ((Container.mem_blocks hs).mpr hb') (Prod.ext_iff.mp hchain)
    exact hthis.1 (BitVec.eq_of_toNat_eq hrank)
  · exact (hplace b' ((Container.mem_blocks hs).mpr hb') (Prod.ext_iff.mp hchain)).2 hlock
  · exact hlater hstrict b' hb' (Prod.ext_iff.mp hchain)

theorem free_of_fits (hs : Sound s.container.epochs) (h : s.container.Fits b) :
    Free s.container.epochs b :=
  fun b' hb' hchain => (h.2.1 b' ((Container.mem_blocks hs).mpr hb') hchain).1

/-- A block that fits is put into its chain. -/
theorem shelves_add (h : s.Tidy) {verified : Bool}
    (hphase : s.threads thread = .adding b verified) (hfits : s.container.Fits b)
    (hrole : phase.role = .free) :
    Sound (s.container.addBlock b verified).1.epochs ∧
      Shelves s.shelf (s.after (s.container.addBlock b verified).1 thread phase).shelf := by
  have hfree := free_of_fits h.sound hfits
  refine ⟨sound_addBlock h.sound hfits.1 hfree,.single ?_⟩
  have hstep := Worklist.Step.shelve thread b (congrArg Phase.role hphase)
    (fits_shelf h.sound hfits)
  have hitems : {b' | Chained (s.container.addBlock b verified).1.epochs b'} =
      insert b {b' | Chained s.container.epochs b'} :=
    Set.ext fun b' => chained_addBlock h.sound hfits.1 hfree
  have hlocked : {hash | ((s.container.addBlock b verified).1.pending hash).lock = true} =
      {hash | (s.container.pending hash).lock = true} \ {b.hash} := by
    ext hash
    simp only [Container.addBlock,update_apply,Set.mem_ofPred_eq,Set.mem_sdiff,
      Set.mem_singleton_iff]
    split
    · next heq => simp [heq]
    · next hne => simp [hne]
  rw [shelf_after,hrole]
  simp only [shelf,hitems,hlocked]
  exact hstep

theorem locked_setLock_false (hash : H) :
    {hash' | ((c.setLock hash false).pending hash').lock = true} =
      {hash' | (c.pending hash').lock = true} \ {hash} := by
  ext hash'
  simp only [Container.lock_setLock,Set.mem_ofPred_eq,Set.mem_sdiff,Set.mem_singleton_iff]
  split
  · next heq => simp [heq]
  · next hne => simp [hne]

theorem locked_setLock_true (hash : H) :
    {hash' | ((c.setLock hash true).pending hash').lock = true} =
      insert hash {hash' | (c.pending hash').lock = true} := by
  ext hash'
  simp only [Container.lock_setLock,Set.mem_ofPred_eq,Set.mem_insert_iff]
  split
  · next heq => simp [heq]
  · next hne => simp [hne]

theorem Tidy.chained_removeFront (h : s.Tidy) (hheld : (s.threads thread).role.held = some b)
    (halone : b.isEpoch = true → s.container.Alone b) (b' : Block H) :
    Chained (removeFront s.container.epochs b) b' ↔ Chained s.container.epochs b' ∧ b' ≠ b := by
  have hfront := h.atFront hheld
  cases hepoch : b.isEpoch with
  | false => exact Cache.chained_removeFront h.sound hfront hepoch
  | true =>
    refine chained_removeFront_epoch hfront.chained hepoch fun b'' hb'' => ?_
    exact halone hepoch b'' ((Container.mem_blocks h.sound).mpr hb'')

theorem shelves_giveBack (h : s.Tidy) (hphase : s.threads thread = .asking ptr idx success)
    (halone : ∀ p,ptr = some p → success = true → p.isEpoch = true → s.container.Alone p) :
    Sound (s.container.giveBack ptr success).epochs ∧
      Shelves s.shelf (s.after (s.container.giveBack ptr success) thread .idle).shelf := by
  have hrole : (Phase.role ∘ s.threads) thread = (Phase.asking ptr idx success).role :=
    congrArg Phase.role hphase
  cases ptr with
  | none =>
    refine ⟨h.sound,?_⟩
    have hsame : Function.update (Phase.role ∘ s.threads) thread (Phase.idle : Phase H).role =
        Phase.role ∘ s.threads := update_eq_self_iff.mpr hrole.symm
    rw [shelf_after,hsame]
    exact .refl
  | some p =>
    rw [shelf_after]
    cases success with
    | false =>
      refine ⟨h.sound,.single ?_⟩
      simp only [shelf,Container.giveBack,Bool.false_eq_true,if_false,locked_setLock_false]
      exact Worklist.Step.putBack thread p hrole
    | true =>
      refine ⟨h.sound.removeFront p,.single ?_⟩
      have hheld : (s.threads thread).role.held = some p := by rw [hphase]; rfl
      have hitems : {b' | Chained (removeFront s.container.epochs p) b'} =
          {b' | Chained s.container.epochs b'} \ {p} :=
        Set.ext fun b' => h.chained_removeFront hheld (halone p rfl rfl) b'
      simp only [shelf,Container.giveBack,if_true,hitems,locked_setLock_false]
      exact Worklist.Step.remove thread p hrole

theorem shelves_take (idx : Fin numDelegates) (hs : Sound s.container.epochs)
    (hphase : s.threads thread = .idle)
    (hfront : AtFront s.container.epochs b) (hready : s.container.ready b.hash = true) :
    Shelves s.shelf (s.after (s.container.setLock b.hash true) thread (.holding b idx)).shelf := by
  obtain ⟨hchained,hleast⟩ := (atFront_iff hs).mp hfront
  have hlock : (s.container.pending b.hash).lock = false := by
    simpa using (Bool.and_eq_true_iff.mp hready).2
  rw [shelf_after]
  simp only [shelf,locked_setLock_true]
  refine .single (Worklist.Step.take thread b (congrArg Phase.role hphase) hchained ?_ ?_)
  · intro b' hb' hchain
    exact hleast b' hb' (Prod.ext_iff.mp hchain)
  · intro hmem
    cases hlock.symm.trans hmem

theorem shelves_ask (h : s.Tidy) (hphase : s.threads thread = .asking ptr idx success)
    (halone : ∀ p,ptr = some p → success = true → p.isEpoch = true → s.container.Alone p)
    (hnext : s.container.getNextBlock ptr idx success = some (c,found)) :
    Sound c.epochs ∧ Shelves s.shelf (s.after c thread (.given found)).shelf := by
  have hptr : ∀ p ∈ ptr,AtFront s.container.epochs p := by
    rintro p rfl
    have hheld : (s.threads thread).role.held = some p := by
      rw [hphase]
      cases success <;> rfl
    exact h.atFront hheld
  obtain ⟨hsound,hback⟩ := shelves_giveBack h hphase halone
  have hgets := Container.getNextBlock_spec h.sound hptr hnext
  cases found with
  | none =>
    rw [show c = _ from hgets]
    exact ⟨hsound,hback⟩
  | some r =>
    obtain ⟨b,idx'⟩ := r
    obtain ⟨hlock,hfront,hready⟩ := hgets
    have htake := shelves_take idx' (s := s.after (s.container.giveBack ptr success) thread .idle)
      hsound (update_self _ _ _) hfront hready
    have hnode : (s.after (s.container.giveBack ptr success) thread .idle).after
        ((s.container.giveBack ptr success).setLock b.hash true) thread (.holding b idx') =
        s.after c thread (.given (some (b,idx'))) := by
      rw [hlock]
      simp [after,setPhase,Phase.given]
    refine ⟨hlock ▸ hsound,hback.trans ?_⟩
    rw [← hnode]
    exact htake

theorem shelves_store (hphase : s.threads thread = .holding b idx) :
    Shelves s.shelf (s.after (s.container.storeBlock b) thread (.storing b idx)).shelf := by
  have hpresent : {hash | hash ∈ (s.container.storeBlock b).queue.map Block.hash ∨
        hash ∈ (s.container.storeBlock b).database} =
      insert b.hash {hash | hash ∈ s.container.queue.map Block.hash ∨
        hash ∈ s.container.database} := by
    ext hash
    simp only [Container.storeBlock,List.map_append,List.map_cons,List.map_nil,List.mem_append,
      List.mem_singleton,Set.mem_ofPred_eq,Set.mem_insert_iff]
    tauto
  refine .single ?_
  rw [shelf_after]
  simp only [shelf,hpresent]
  exact Worklist.Step.store thread b (congrArg Phase.role hphase)

theorem shelves_delete (hphase : s.threads thread = .storing b idx) :
    Shelves s.shelf
      (s.after (s.container.blockDelete b.hash) thread (.asking (some b) idx true)).shelf := by
  have hcached : {hash | hash ∈ (s.container.blockDelete b.hash).cachedBlocks} =
      {hash | hash ∈ s.container.cachedBlocks} \ {b.hash} := by
    ext hash
    simp only [Container.blockDelete,Finset.mem_erase,Set.mem_ofPred_eq,Set.mem_sdiff,
      Set.mem_singleton_iff]
    exact And.comm
  refine .single ?_
  rw [shelf_after]
  simp only [shelf,hcached]
  exact Worklist.Step.forget thread b (congrArg Phase.role hphase)

/-! ## Every step -/

theorem shelf_after_same (hc : SameShelf s.container c)
    (hrole : phase.role = (s.threads thread).role) : (s.after c thread phase).shelf = s.shelf := by
  apply shelf_eq hc
  rw [after,roles_setPhase]
  exact update_eq_self_iff.mpr hrole

theorem shelves_advance (h : s.Tidy) {verdict : Option Refusal}
    (hmeets : s.meets (.advance thread verdict) = true)
    (hstep : s.advance thread verdict = some s') :
    Sound s'.container.epochs ∧ Shelves s.shelf s'.shelf := by
  have hsame : ∀ {c phase},SameShelf s.container c → phase.role = (s.threads thread).role →
      Sound (s.after c thread phase).container.epochs ∧
        Shelves s.shelf (s.after c thread phase).shelf := by
    intro c phase hc hrole
    refine ⟨hc.epochs.symm ▸ h.sound,?_⟩
    rw [shelf_after_same hc hrole]
  unfold advance at hstep
  split at hstep
  · cases hstep
    exact ⟨h.sound,.refl⟩
  · next b verified hphase =>
    simp only [meets,hphase,decide_eq_true_eq] at hmeets
    cases hstep
    apply shelves_add h hphase hmeets
    split <;> rfl
  · next ptr idx success hphase =>
    obtain ⟨⟨c,found⟩,hnext,rfl⟩ := map_eq_some_iff.mp hstep
    refine shelves_ask h hphase ?_ hnext
    rintro p rfl rfl hepoch
    simp only [meets,hphase,decide_eq_true_eq] at hmeets
    exact hmeets hepoch
  · next b idx hphase =>
    split at hstep
    · cases hstep
      exact ⟨h.sound,shelves_store hphase⟩
    · obtain ⟨hashes,-,rfl⟩ := map_eq_some_iff.mp hstep
      exact hsame (Container.SameShelf.refl _) (by rw [hphase]; rfl)
  · next b idx hphase =>
    cases hstep
    exact ⟨h.sound,shelves_delete hphase⟩
  · next b idx seen hphase =>
    cases hstep
    exact hsame (Container.SameShelf.refl _) (by rw [hphase]; rfl)
  · next b idx seen hash hashes hphase =>
    have hc : SameShelf s.container (s.container.addDependency hash b.hash).1 :=
      Container.sameShelf_addDependency
    split at hstep
    · cases hstep
      exact hsame (Container.SameShelf.refl _) (by rw [hphase]; rfl)
    · next c hadd =>
      cases hstep
      rw [hadd] at hc
      exact hsame hc (by rw [hphase]; rfl)
  · next b idx seen hash hashes hphase =>
    cases hstep
    exact hsame Container.sameShelf_addReliance (by rw [hphase]; rfl)
  · next marked hphase =>
    cases hstep
    exact hsame (Container.SameShelf.refl _) (by rw [hphase]; cases marked <;> rfl)
  · next hash hashes marked hphase =>
    cases hstep
    refine hsame Container.sameShelf_deleteHashDependencies ?_
    rw [hphase]
    split <;> rfl
  · next hash chains hashes hphase =>
    cases hstep
    exact hsame (Container.sameShelf_markForRevalidation chains) (by rw [hphase]; rfl)

theorem shelves_accept (hphase : s.threads thread = .idle) {verified : Bool}
    (hnew : s.container.blockExistsAdd b = (false,c)) :
    Sound s.container.epochs → Sound c.epochs ∧
      Shelves s.shelf (s.after c thread (.adding b verified)).shelf := by
  intro hsound
  unfold Container.blockExistsAdd at hnew
  split at hnew
  · cases hnew
  · next hnot =>
    push Not at hnot
    cases hnew
    refine ⟨hsound,.single ?_⟩
    have hcached : {hash | hash ∈ insert b.hash s.container.cachedBlocks} =
        insert b.hash {hash | hash ∈ s.container.cachedBlocks} := by
      ext hash
      simp
    rw [shelf_after]
    simp only [shelf,hcached]
    refine Worklist.Step.accept thread b (congrArg Phase.role hphase) hnot.1 ?_
    rintro (hqueue | hdatabase)
    · exact hnot.2.1 hqueue
    · exact hnot.2.2 hdatabase

theorem shelves_step {requestHash : Request H → H} {e : Event H ω} {o : List Empty} (h : s.Tidy)
    (hmeets : s.meets e = true) (hstep : s.step requestHash e = some (s',o)) :
    Sound s'.container.epochs ∧ Shelves s.shelf s'.shelf := by
  cases e with
  | arrive thread b verified =>
    simp only [step] at hstep
    split at hstep
    · next c hphase hnew =>
      cases hstep
      exact shelves_accept hphase hnew h.sound
    · cases hstep
      exact ⟨h.sound,.refl⟩
  | advance thread verdict =>
    obtain ⟨s1,hadvance,heq⟩ := map_eq_some_iff.mp hstep
    cases heq
    exact shelves_advance h hmeets hadvance
  | write =>
    simp only [step] at hstep
    split at hstep
    · next c b hwrite =>
      cases hstep
      have hc := Container.sameShelf_writeBlock hwrite
      have hshelf : { s with container := c,posted := s.posted ++ [b] }.shelf = s.shelf :=
        shelf_eq hc rfl
      exact ⟨hc.epochs.symm ▸ h.sound,hshelf ▸ .refl⟩
    · cases hstep
      exact ⟨h.sound,.refl⟩
  | process thread b =>
    simp only [step] at hstep
    split at hstep
    · next hphase =>
      split at hstep
      · cases hstep
        have hshelf : ({ s with posted := s.posted.erase b }.setPhase thread
            (.marking (b.released requestHash) false)).shelf = s.shelf := by
          refine shelf_eq (Container.SameShelf.refl s.container) ?_
          rw [roles_setPhase]
          exact update_eq_self_iff.mpr (congrArg Phase.role hphase).symm
        exact ⟨h.sound,hshelf ▸ .refl⟩
      · cases hstep
        exact ⟨h.sound,.refl⟩
    · cases hstep
      exact ⟨h.sound,.refl⟩

theorem tidy_step {requestHash : Request H → H} {e : Event H ω} {o : List Empty} (h : s.Tidy)
    (hmeets : s.meets e = true) (hstep : s.step requestHash e = some (s',o)) : s'.Tidy := by
  obtain ⟨hsound,hshelf⟩ := shelves_step h hmeets hstep
  exact ⟨hsound,h.orderly.steps hshelf⟩

theorem tidy_start (database : Finset H) : (start database : Node H ω).Tidy := by
  refine ⟨⟨by simp [start,Container.empty],List.Pairwise.nil⟩,?_⟩
  have hempty : (start database : Node H ω).shelf =
      ⟨∅,∅,{hash | hash ∈ database},[],∅,fun _ => .free⟩ := by
    simp [shelf,start,Container.empty,Chained,Pending.default]
    rfl
  rw [hempty]
  exact Worklist.orderly_empty _

/-- Each block went to the write queue once, request blocks of a chain in order, and stands in its
chain until its thread asks for the next one; a hash is cached while its block is there. -/
structure OnceInOrder (s : Node H ω) : Prop where
  once : (s.container.handed.map Block.hash).Nodup
  ordered : s.container.handed.Pairwise fun b b' =>
    SameChain b b' → b.lane.isRequest = true → b.sequence < b'.sequence
  cached : ∀ hash,hash ∈ s.container.cachedBlocks ↔
    (∃ thread b verified,s.threads thread = .adding b verified ∧ b.hash = hash) ∨
    ∃ b,Chained s.container.epochs b ∧ b.hash = hash ∧
      ∀ thread idx,s.threads thread ≠ .asking (some b) idx true

/-- A thread takes the block it was given out of its chain if it was good, and no other. -/
def RemovesOwn (s : Node H ω) : Prop :=
  ∀ thread b idx success c found verdict,s.threads thread = .asking (some b) idx success →
    s.meets (.advance thread verdict) = true →
    s.container.getNextBlock (some b) idx success = some (c,found) →
    ∀ b',Chained c.epochs b' ↔ Chained s.container.epochs b' ∧ (success = true → b' ≠ b)

theorem role_added : phase.role.added = some b ↔ ∃ verified,phase = .adding b verified := by
  constructor
  · intro h
    unfold Phase.role at h
    split at h <;> cases h
    exact ⟨_,rfl⟩
  · rintro ⟨verified,rfl⟩
    rfl

theorem role_done : phase.role.done = some b ↔ ∃ idx,phase = .asking (some b) idx true := by
  constructor
  · intro h
    unfold Phase.role at h
    split at h <;> cases h
    exact ⟨_,rfl⟩
  · rintro ⟨idx,rfl⟩
    rfl

theorem Tidy.onceInOrder (h : s.Tidy) : s.OnceInOrder := by
  refine ⟨h.orderly.once,?_,fun hash => ?_⟩
  · refine h.orderly.ordered.imp fun hlt hchain hrequest => ?_
    exact hlt (Prod.ext hchain.1 hchain.2) hrequest
  · refine (h.orderly.cached hash).trans (or_congr ?_ ?_)
    · constructor
      · rintro ⟨thread,b,hb,hhash⟩
        obtain ⟨verified,hphase⟩ := role_added.mp hb
        exact ⟨thread,b,verified,hphase,hhash⟩
      · rintro ⟨thread,b,verified,hphase,hhash⟩
        exact ⟨thread,b,role_added.mpr ⟨verified,hphase⟩,hhash⟩
    · constructor
      · rintro ⟨b,hb,hhash,hnone⟩
        exact ⟨b,hb,hhash,fun thread idx hphase => hnone thread (role_done.mpr ⟨idx,hphase⟩)⟩
      · rintro ⟨b,hb,hhash,hnone⟩
        refine ⟨b,hb,hhash,fun thread hdone => ?_⟩
        obtain ⟨idx,hphase⟩ := role_done.mp hdone
        exact hnone thread idx hphase

theorem Tidy.removesOwn (h : s.Tidy) : s.RemovesOwn := by
  intro thread b idx success c found verdict hphase hmeets hnext b'
  have hheld : (s.threads thread).role.held = some b := by
    rw [hphase]
    cases success <;> rfl
  have hptr : ∀ p ∈ some b,AtFront s.container.epochs p := by
    intro p hp
    rw [← mem_some_iff.mp hp]
    exact h.atFront hheld
  have hgets := Container.getNextBlock_spec h.sound hptr hnext
  have hepochs : c.epochs = (s.container.giveBack (some b) success).epochs := by
    cases found with
    | none => rw [show c = _ from hgets]
    | some r =>
      rw [hgets.1]
      rfl
  rw [hepochs]
  cases success with
  | false => simp [Container.giveBack]
  | true =>
    simp only [meets,hphase,decide_eq_true_eq] at hmeets
    simpa [Container.giveBack] using h.chained_removeFront hheld hmeets b'

variable {requestHash : Request H → H}

/-- Where each block has a place of its own behind those taken from its chain, and no epoch block
leaves before the rest of its epoch, blocks leave once and in order. -/
theorem exec_onceInOrder {database : Finset H} {events : List (Event H ω)} {o : List Empty}
    (hmeets : Machine.Along (step requestHash) (fun s e => s.meets e = true) (start database)
      events) (hrun : Machine.exec (step requestHash) (start database) events = some (s,o)) :
    s.OnceInOrder ∧ s.RemovesOwn := by
  have htidy : s.Tidy := Machine.exec_preserves (I := fun _ s => s.Tidy)
    (fun _ _ _ _ _ h hmeets hstep => tidy_step h hmeets hstep) (tidy_start database) hmeets hrun
  exact ⟨htidy.onceInOrder,htidy.removesOwn⟩

end Node

end Order

namespace Node

def sampleBlock (hash : ℕ) (sequence : BitVec 32) (previous : ℕ) : Block ℕ :=
  .request ⟨hash,1,0,sequence,previous,[]⟩

/-- The second block of the chain arrives while a thread validates the first one. -/
def sampleRun : List (Event ℕ ℕ) :=
  [.arrive 0 (sampleBlock 11 0 10) false,.advance 0 none,.advance 0 none,
    .arrive 1 (sampleBlock 12 1 11) true,.advance 1 none,.advance 0 none,.advance 0 none,
    .advance 0 none,.advance 0 none]

theorem exec_onceInOrder_sample :
    ∃ s o,Machine.exec (step Ledger.Config.sample.requestHash) (start ∅) sampleRun = some (s,o) ∧
      s.container.handed.map Block.hash = [11,12] ∧ s.OnceInOrder ∧ s.RemovesOwn := by
  have hrun : (Machine.exec (step Ledger.Config.sample.requestHash) (start ∅) sampleRun).map
      (fun r => r.1.container.handed.map Block.hash) = some [11,12] := by decide +kernel
  have hmeets : Machine.checks (step Ledger.Config.sample.requestHash) meets (start ∅) sampleRun =
      true := by decide +kernel
  obtain ⟨⟨s,o⟩,hr,hhanded⟩ := map_eq_some_iff.mp hrun
  exact ⟨s,o,hr,hhanded,exec_onceInOrder (Machine.along_of_checks hmeets) hr⟩

def overtakenRun : List (Event ℕ ℕ) :=
  [.arrive 0 (sampleBlock 12 1 11) true,.advance 0 none,.advance 0 none,
    .arrive 1 (sampleBlock 11 0 10) false,.advance 1 none,.advance 0 none,.advance 0 none,
    .advance 0 none,.advance 0 none]

/-- The first block is taken out instead of the second, which is queued twice. -/
theorem overtaken_written_twice :
    ∃ s o,Machine.exec (step Ledger.Config.sample.requestHash) (start ∅) overtakenRun = some (s,o) ∧
      s.container.handed.map Block.hash = [12,12] ∧ s.container.blocks.map Block.hash = [12] ∧
      11 ∈ s.container.cachedBlocks ∧ ¬ s.OnceInOrder := by
  have hrun : (Machine.exec (step Ledger.Config.sample.requestHash) (start ∅) overtakenRun).map
      (fun r => (r.1.container.handed.map Block.hash,r.1.container.blocks.map Block.hash,
        decide (11 ∈ r.1.container.cachedBlocks))) = some ([12,12],[12],true) := by
    decide +kernel
  obtain ⟨⟨s,o⟩,hr,heq⟩ := map_eq_some_iff.mp hrun
  obtain ⟨hhanded,hblocks⟩ := Prod.ext_iff.mp heq
  obtain ⟨hblocks,hcached⟩ := Prod.ext_iff.mp hblocks
  refine ⟨s,o,hr,hhanded,hblocks,of_decide_eq_true hcached,fun h => ?_⟩
  have honce := h.once
  rw [show s.container.handed.map Block.hash = [12,12] from hhanded] at honce
  exact absurd honce (by decide)

end Node

end LogosCore.Cache
