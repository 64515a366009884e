import LogosCore.CacheThreads

/-! # No wake-up is lost

A block that waits for a hash is registered in the dependency table, and the thread that releases
the hash takes all that are registered and then erases what they wait for. The registration has two
parts under two mutexes, and the history of recent writes, which keeps a thread from registering for
a hash that was released in the meantime, is bounded. -/
namespace LogosCore.Cache

open Function

open Ledger (Request)
open Archive (numDelegates)

/-- The hash and the block of a thread that is between the two parts of a registration. -/
def Phase.reliesOn {H : Type} : Phase H → Option (H × H)
  | .relying b _ _ hash _ => some (hash,b.hash)
  | _ => none

/-- The hash that a thread is about to erase, and the blocks that wait for it. -/
def Phase.erases {H : Type} : Phase H → Option (H × List H)
  | .revalidating hash chains _ => some (hash,chains)
  | _ => none

def Phase.releasing {H : Type} : Phase H → Option H
  | .marking (hash::_) _ => some hash
  | _ => none

/-- The hash for which a thread registers its block next, and the releases seen before. -/
def Phase.registering {H : Type} : Phase H → Option (H × ℕ)
  | .waiting _ _ seen (hash::_) => some (hash,seen)
  | _ => none

def Event.advances {H ω : Type} : Event H ω → Option ω
  | .advance thread _ => some thread
  | _ => none

section WakeUps

variable {H ω : Type} [DecidableEq H] [DecidableEq ω]

namespace Container

variable {c c' : Container H} {success : Bool} {idx : Fin numDelegates} {ptr : Option (Block H)}
  {before rest : List (EpochPeriod H)} {wanted : Ledger.Epoch} {hash b : H}
  {found : Option (Block H × Fin numDelegates)}

/-- What a block waits for, and who waits for a hash. -/
structure SameWaits (c c' : Container H) : Prop where
  reliances : ∀ b,(c'.pending b).reliances = (c.pending b).reliances
  table : c'.hashDependencyTable = c.hashDependencyTable

theorem search_sameWaits
    (h : search c success before rest ptr wanted idx = some (c',found)) : SameWaits c c' := by
  induction rest generalizing before ptr wanted with
  | nil =>
    cases h
    exact ⟨fun _ => rfl,rfl⟩
  | cons e rest ih =>
    simp only [search] at h
    split at h
    · exact ih h
    · split at h
      · cases h
      · split at h
        · exact ih h
        · split at h
          · cases h
            exact ⟨fun b => reliances_setLock _ b true,rfl⟩
          · split at h
            · exact ih h
            · cases h
              exact ⟨fun _ => rfl,rfl⟩

theorem getNextBlock_sameWaits (h : c.getNextBlock ptr idx success = some (c',found)) :
    SameWaits c c' := by
  cases ptr with
  | none => exact search_sameWaits h
  | some p =>
    have hwaits := search_sameWaits h
    exact ⟨fun b => (hwaits.reliances b).trans (reliances_setLock _ b false),hwaits.table⟩

theorem reliances_addReliance (b' : H) :
    ((c.addReliance hash b).pending b').reliances =
      if b' = b then insert hash (c.pending b).reliances else (c.pending b').reliances := by
  simp only [addReliance,setPending,update_apply]
  split <;> rfl

theorem reliances_markForRevalidation (chains : List H) (b : H) :
    ((c.markForRevalidation hash chains).pending b).reliances =
      if b ∈ chains then (c.pending b).reliances.erase hash else (c.pending b).reliances := by
  induction chains generalizing c with
  | nil => rfl
  | cons b' chains ih =>
    have hrest := ih (c := c.setPending b'
      { c.pending b' with reliances := (c.pending b').reliances.erase hash })
    simp only [markForRevalidation,List.foldl_cons] at hrest ⊢
    rw [hrest]
    by_cases hb : b = b'
    · subst hb
      simp [setPending]
    · simp [setPending,hb]

theorem table_markForRevalidation (chains : List H) :
    (c.markForRevalidation hash chains).hashDependencyTable = c.hashDependencyTable := by
  induction chains generalizing c with
  | nil => rfl
  | cons b chains ih => exact ih

end Container

namespace Node

/-- A thread is about to erase a hash from what a block waits for. -/
def Erasing (s : Node H ω) (hash b : H) : Prop :=
  ∃ thread chains,(s.threads thread).erases = some (hash,chains) ∧ b ∈ chains

/-- A block is in the table for a hash that was not released since. -/
def Registered (s : Node H ω) (hash b : H) : Prop :=
  (hash,b) ∈ s.container.hashDependencyTable ∧ hash ∉ s.releases.drop (s.asked hash b)

/-- Every block that waits for a hash is registered for it, or about to be woken. -/
def Wakes (s : Node H ω) : Prop :=
  ∀ hash b,hash ∈ (s.container.pending b).reliances → s.Erasing hash b ∨ s.Registered hash b

/-- No hash is released between the two parts of a registration, and one released after the
validation that asks for it is still in the history when a thread registers. -/
def Timely (s : Node H ω) (e : Event H ω) : Prop :=
  ∀ thread ∈ e.advances,
    (∀ hash ∈ (s.threads thread).releasing,∀ t,(s.threads t).reliesOn.map Prod.fst ≠ some hash) ∧
    ∀ p ∈ (s.threads thread).registering,
      p.1 ∈ s.container.recentDBWrites ∨ p.1 ∉ s.releases.drop p.2

/-- The second part of a registration is done for registered blocks. -/
structure Attentive (s : Node H ω) : Prop where
  wakes : s.Wakes
  halves : ∀ thread hash b,(s.threads thread).reliesOn = some (hash,b) → s.Registered hash b

instance [Fintype ω] (s : Node H ω) (e : Event H ω) : Decidable (s.Timely e) :=
  inferInstanceAs (Decidable (∀ _ ∈ _,_))

variable {s s' : Node H ω} {c : Container H} {thread : ω} {phase : Phase H} {hash b : H}

section Steps

variable (hthreads : s'.threads = Function.update s.threads thread phase)

include hthreads

theorem apply_threads {β : Type} {f : Phase H → β} (h : f phase = f (s.threads thread)) (t : ω) :
    f (s'.threads t) = f (s.threads t) := by
  rw [hthreads,update_apply]
  split
  · next heq => rw [h,heq]
  · rfl

theorem Erasing.keep (herases : phase.erases = (s.threads thread).erases) (h : s.Erasing hash b) :
    s'.Erasing hash b := by
  obtain ⟨t,chains,ht,hb⟩ := h
  exact ⟨t,chains,(apply_threads hthreads herases t).trans ht,hb⟩

/-- A thread that is not between the parts of a registration after a step. -/
theorem reliesOn_of_none (hrelies : phase.reliesOn = none) {t : ω}
    (ht : (s'.threads t).reliesOn = some (hash,b)) : (s.threads t).reliesOn = some (hash,b) := by
  rw [hthreads,update_apply] at ht
  split at ht
  · rw [hrelies] at ht
    cases ht
  · exact ht

end Steps

section Keeping

omit [DecidableEq ω] in
theorem registered_congr
    (htable : s'.container.hashDependencyTable = s.container.hashDependencyTable)
    (hreleases : s'.releases = s.releases) (hasked : s'.asked = s.asked) ⦃hash b : H⦄
    (h : s.Registered hash b) : s'.Registered hash b := by
  rw [Registered,htable,hreleases,hasked]
  exact h

variable (h : s.Attentive) (hthreads : s'.threads = Function.update s.threads thread phase)
  (hreleases : s'.releases = s.releases)

include h hthreads hreleases

/-- A step that adds no waiting and in which its thread neither registers nor erases. -/
theorem Attentive.aside (hasked : s'.asked = s.asked)
    (hrel : ∀ b,(s'.container.pending b).reliances ⊆ (s.container.pending b).reliances)
    (htable : s'.container.hashDependencyTable = s.container.hashDependencyTable)
    (herases : phase.erases = (s.threads thread).erases) (hrelies : phase.reliesOn = none) :
    s'.Attentive := by
  have hregistered := registered_congr htable hreleases hasked
  refine ⟨fun hash b hmem => ?_,fun t hash b ht => ?_⟩
  · rcases h.wakes hash b (hrel b hmem) with hthis | hthis
    · exact .inl (hthis.keep hthreads herases)
    · exact .inr (hregistered hthis)
  · exact hregistered (h.halves t hash b (reliesOn_of_none hthreads hrelies ht))

/-- The first part of a registration, for a hash that was not released since the validation. -/
theorem Attentive.register {seen : ℕ}
    (hasked : s'.asked = Function.update s.asked hash (Function.update (s.asked hash) b seen))
    (hrel : ∀ b,(s'.container.pending b).reliances = (s.container.pending b).reliances)
    (htable : s'.container.hashDependencyTable = s.container.hashDependencyTable ++ [(hash,b)])
    (herases : phase.erases = (s.threads thread).erases) (hrelies : phase.reliesOn = some (hash,b))
    (hnew : hash ∉ s.releases.drop seen) : s'.Attentive := by
  have hthis : s'.Registered hash b := by
    rw [Registered,htable,hreleases,hasked]
    simpa using hnew
  have hothers : ∀ {hash' b'},s.Registered hash' b' → s'.Registered hash' b' := by
    intro hash' b' hreg
    by_cases hsame : hash' = hash ∧ b' = b
    · obtain ⟨rfl,rfl⟩ := hsame
      exact hthis
    · have hkeeps : s'.asked hash' b' = s.asked hash' b' := by
        rw [hasked]
        by_cases hh : hash' = hash
        · subst hh
          have hb : b' ≠ b := fun hb => hsame ⟨rfl,hb⟩
          simp [hb]
        · simp [hh]
      rw [Registered,htable,hreleases,hkeeps]
      exact ⟨List.mem_append_left _ hreg.1,hreg.2⟩
  refine ⟨fun hash' b' hmem => ?_,fun t hash' b' ht => ?_⟩
  · rw [hrel] at hmem
    rcases h.wakes hash' b' hmem with hthis | hreg
    · exact .inl (hthis.keep hthreads herases)
    · exact .inr (hothers hreg)
  · rw [hthreads,update_apply] at ht
    split at ht
    · rw [hrelies] at ht
      cases ht
      exact hthis
    · exact hothers (h.halves t hash' b' ht)

/-- The second part, for a block that is registered. -/
theorem Attentive.rely (hasked : s'.asked = s.asked)
    (hrel : ∀ b',(s'.container.pending b').reliances = if b' = b then
      insert hash (s.container.pending b).reliances else (s.container.pending b').reliances)
    (htable : s'.container.hashDependencyTable = s.container.hashDependencyTable)
    (hold : (s.threads thread).reliesOn = some (hash,b))
    (herases : phase.erases = (s.threads thread).erases) (hrelies : phase.reliesOn = none) :
    s'.Attentive := by
  have hregistered := registered_congr htable hreleases hasked
  refine ⟨fun hash' b' hmem => ?_,fun t hash' b' ht => ?_⟩
  · have hbefore : (hash' = hash ∧ b' = b) ∨ hash' ∈ (s.container.pending b').reliances := by
      rw [hrel] at hmem
      split at hmem
      · next heq =>
        rw [heq]
        rcases Finset.mem_insert.mp hmem with rfl | hmem
        · exact .inl ⟨rfl,rfl⟩
        · exact .inr hmem
      · exact .inr hmem
    rcases hbefore with ⟨rfl,rfl⟩ | hmem
    · exact .inr (hregistered (h.halves thread hash' b' hold))
    · rcases h.wakes hash' b' hmem with hthis | hreg
      · exact .inl (hthis.keep hthreads herases)
      · exact .inr (hregistered hreg)
  · exact hregistered (h.halves t hash' b' (reliesOn_of_none hthreads hrelies ht))

/-- A thread erases a hash from what those that it took from the table wait for. -/
theorem Attentive.erase {chains : List H} (hasked : s'.asked = s.asked)
    (hrel : ∀ b,(s'.container.pending b).reliances = if b ∈ chains then
      (s.container.pending b).reliances.erase hash else (s.container.pending b).reliances)
    (htable : s'.container.hashDependencyTable = s.container.hashDependencyTable)
    (hold : (s.threads thread).erases = some (hash,chains)) (hrelies : phase.reliesOn = none) :
    s'.Attentive := by
  have hregistered := registered_congr htable hreleases hasked
  refine ⟨fun hash' b' hmem => ?_,fun t hash' b' ht => ?_⟩
  · rw [hrel] at hmem
    have hbefore : hash' ∈ (s.container.pending b').reliances ∧ ¬ (hash' = hash ∧ b' ∈ chains) := by
      split at hmem
      · exact ⟨Finset.mem_of_mem_erase hmem,fun heq => Finset.ne_of_mem_erase hmem heq.1⟩
      · next hnot => exact ⟨hmem,fun heq => hnot heq.2⟩
    rcases h.wakes hash' b' hbefore.1 with ⟨t,chains',ht,hb'⟩ | hreg
    · refine .inl ⟨t,chains',?_,hb'⟩
      have hne : t ≠ thread := by
        rintro rfl
        rw [hold] at ht
        cases ht
        exact hbefore.2 ⟨rfl,hb'⟩
      rw [hthreads,update_of_ne hne,ht]
    · exact .inr (hregistered hreg)
  · exact hregistered (h.halves t hash' b' (reliesOn_of_none hthreads hrelies ht))

end Keeping

/-- A hash is released: those that are registered for it are taken from the table. -/
theorem Attentive.release (h : s.Attentive)
    (hthreads : s'.threads = Function.update s.threads thread phase)
    (hreleases : s'.releases = s.releases ++ [hash]) (hasked : s'.asked = s.asked)
    (hrel : ∀ b,(s'.container.pending b).reliances = (s.container.pending b).reliances)
    (htable : s'.container.hashDependencyTable =
      s.container.hashDependencyTable.filter fun p => p.1 ≠ hash)
    (hold : (s.threads thread).erases = none)
    (herases : ∀ b,(hash,b) ∈ s.container.hashDependencyTable →
      ∃ chains,phase.erases = some (hash,chains) ∧ b ∈ chains) (hrelies : phase.reliesOn = none)
    (hnone : ∀ t b,(s.threads t).reliesOn ≠ some (hash,b)) : s'.Attentive := by
  have hothers : ∀ {hash' b},hash' ≠ hash → s.Registered hash' b → s'.Registered hash' b := by
    intro hash' b hne hreg
    rw [Registered,htable,hreleases,hasked]
    refine ⟨List.mem_filter.mpr ⟨hreg.1,by simpa using hne⟩,fun hmem => ?_⟩
    rw [List.drop_append,List.mem_append] at hmem
    rcases hmem with hmem | hmem
    · exact hreg.2 hmem
    · exact hne (List.mem_singleton.mp (List.mem_of_mem_drop hmem))
  refine ⟨fun hash' b hmem => ?_,fun t hash' b ht => ?_⟩
  · rw [hrel] at hmem
    rcases h.wakes hash' b hmem with ⟨t,chains,ht,hb⟩ | hreg
    · refine .inl ⟨t,chains,?_,hb⟩
      have hne : t ≠ thread := by
        rintro rfl
        rw [hold] at ht
        cases ht
      rw [hthreads,update_of_ne hne,ht]
    · by_cases heq : hash' = hash
      · subst heq
        obtain ⟨chains,hchains,hb⟩ := herases b hreg.1
        refine .inl ⟨thread,chains,?_,hb⟩
        rw [hthreads,update_self,hchains]
      · exact .inr (hothers heq hreg)
  · have ht' := reliesOn_of_none hthreads hrelies ht
    have hne : hash' ≠ hash := by
      rintro rfl
      exact hnone t b ht'
    exact hothers hne (h.halves t hash' b ht')

/-! ## Every step -/

theorem reliances_addBlock (b' : Block H) (verified : Bool) (b : H) :
    ((s.container.addBlock b' verified).1.pending b).reliances ⊆
      (s.container.pending b).reliances := by
  simp only [Container.addBlock,update_apply]
  split
  · exact Finset.empty_subset _
  · exact Finset.Subset.refl _

theorem Attentive.advance (h : s.Attentive) {verdict : Option Refusal}
    (htimely : s.Timely (.advance thread verdict)) (hstep : s.advance thread verdict = some s') :
    s'.Attentive := by
  have hquiet : ∀ {c phase},Container.SameWaits s.container c →
      phase.erases = (s.threads thread).erases → phase.reliesOn = none →
      (s.after c thread phase).Attentive := fun {c phase} hc herases hrelies =>
    h.aside rfl rfl rfl (fun b => (hc.reliances b).subset) hc.table herases hrelies
  have hsame : Container.SameWaits s.container s.container := ⟨fun _ => rfl,rfl⟩
  obtain ⟨hrelease,hregister⟩ := htimely thread rfl
  unfold Node.advance at hstep
  split at hstep
  · cases hstep
    exact h
  · next b verified hphase =>
    cases hstep
    refine h.aside rfl rfl rfl (reliances_addBlock b verified) rfl ?_ ?_
    · rw [hphase]
      split <;> rfl
    · split <;> rfl
  · next ptr idx success hphase =>
    obtain ⟨⟨c,found⟩,hnext,rfl⟩ := Option.map_eq_some_iff.mp hstep
    refine hquiet (Container.getNextBlock_sameWaits hnext) ?_ ?_
    · rw [hphase]
      cases found <;> rfl
    · cases found <;> rfl
  · next b idx hphase =>
    split at hstep
    · cases hstep
      exact hquiet ⟨fun _ => rfl,rfl⟩ (by rw [hphase]; rfl) rfl
    · obtain ⟨hashes,-,rfl⟩ := Option.map_eq_some_iff.mp hstep
      exact hquiet hsame (by rw [hphase]; rfl) rfl
  · next b idx hphase =>
    cases hstep
    exact hquiet ⟨fun _ => rfl,rfl⟩ (by rw [hphase]; rfl) rfl
  · next b idx seen hphase =>
    cases hstep
    exact hquiet hsame (by rw [hphase]; rfl) rfl
  · next b idx seen hash hashes hphase =>
    split at hstep
    · cases hstep
      exact hquiet hsame (by rw [hphase]; rfl) rfl
    · next c hadd =>
      cases hstep
      unfold Container.addDependency at hadd
      split at hadd
      · cases hadd
      · next hrecent =>
        cases hadd
        have hnew := (hregister (hash,seen) (by rw [hphase]; rfl)).resolve_left hrecent
        exact h.register rfl rfl rfl (fun _ => rfl) rfl (by rw [hphase]; rfl) rfl hnew
  · next b idx seen hash hashes hphase =>
    cases hstep
    exact h.rely rfl rfl rfl (fun b' => Container.reliances_addReliance b') rfl
      (by rw [hphase]; rfl) (by rw [hphase]; rfl) rfl
  · next marked hphase =>
    cases hstep
    refine hquiet hsame ?_ ?_
    · rw [hphase]
      cases marked <;> rfl
    · cases marked <;> rfl
  · next hash hashes marked hphase =>
    cases hstep
    have hnone : ∀ t b,(s.threads t).reliesOn ≠ some (hash,b) := fun t b ht =>
      hrelease hash (by rw [hphase]; rfl) t (by rw [ht]; rfl)
    refine h.release rfl rfl rfl (fun _ => rfl) rfl (by rw [hphase]; rfl) (fun b hb => ?_) ?_ hnone
    · have hin : b ∈ (s.container.deleteHashDependencies hash).2 :=
        List.mem_map.mpr ⟨(hash,b),List.mem_filter.mpr ⟨hb,by simp⟩,rfl⟩
      have hne : ¬ (s.container.deleteHashDependencies hash).2.isEmpty = true := by
        rw [List.isEmpty_iff]
        exact List.ne_nil_of_mem hin
      exact ⟨_,congrArg Phase.erases (if_neg hne),hin⟩
    · split <;> rfl
  · next hash chains hashes hphase =>
    cases hstep
    exact h.erase rfl rfl rfl (fun b => Container.reliances_markForRevalidation chains b)
      (Container.table_markForRevalidation chains) (by rw [hphase]; rfl) rfl

theorem Attentive.step {requestHash : Request H → H} {e : Event H ω} {o : List Empty}
    (h : s.Attentive) (htimely : s.Timely e) (hstep : s.step requestHash e = some (s',o)) :
    s'.Attentive := by
  cases e with
  | arrive thread b verified =>
    simp only [Node.step] at hstep
    split at hstep
    · next c hphase hnew =>
      cases hstep
      have hc : c.pending = s.container.pending ∧
          c.hashDependencyTable = s.container.hashDependencyTable := by
        unfold Container.blockExistsAdd at hnew
        split at hnew
        · cases hnew
        · cases hnew
          exact ⟨rfl,rfl⟩
      exact h.aside rfl rfl rfl (fun b' => by rw [after,setPhase,hc.1]) hc.2
        (by rw [hphase]; rfl) rfl
    · cases hstep
      exact h
  | advance thread verdict =>
    obtain ⟨s1,hadvance,heq⟩ := Option.map_eq_some_iff.mp hstep
    cases heq
    exact h.advance htimely hadvance
  | write =>
    simp only [Node.step] at hstep
    split at hstep
    · next c b hwrite =>
      cases hstep
      unfold Container.writeBlock at hwrite
      split at hwrite
      · cases hwrite
        exact ⟨h.wakes,h.halves⟩
      · cases hwrite
    · cases hstep
      exact h
  | process thread b =>
    simp only [Node.step] at hstep
    split at hstep
    · next hphase =>
      split at hstep
      · cases hstep
        exact h.aside rfl rfl rfl (fun _ => Finset.Subset.refl _) rfl (by rw [hphase]; rfl) rfl
      · cases hstep
        exact h
    · cases hstep
      exact h

theorem attentive_start (database : Finset H) : (start database : Node H ω).Attentive := by
  refine ⟨fun hash b hmem => ?_,fun thread hash b ht => ?_⟩
  · simp [start,Container.empty,Pending.default] at hmem
  · cases ht

/-- A thread that is about to erase a hash from what a block waits for does so in its next step. -/
theorem Erasing.erased (h : s.Erasing hash b) :
    ∃ thread s',s.advance thread none = some s' ∧ hash ∉ (s'.container.pending b).reliances := by
  obtain ⟨thread,chains,ht,hb⟩ := h
  obtain ⟨hashes,hphase⟩ : ∃ hashes,s.threads thread = .revalidating hash chains hashes := by
    unfold Phase.erases at ht
    split at ht
    · next hphase =>
      cases ht
      exact ⟨_,hphase⟩
    · cases ht
  refine ⟨thread,
    s.after (s.container.markForRevalidation hash chains) thread (.marking hashes true),
    by simp only [advance,hphase],?_⟩
  simp only [after,setPhase,Container.reliances_markForRevalidation,if_pos hb]
  exact Finset.notMem_erase _ _

variable {requestHash : Request H → H}

/-- Where no hash is released between the two parts of a registration, and the history keeps those
released since a validation asked, each block that waits is registered, or about to be woken. -/
theorem exec_wakes {database : Finset H} {events : List (Event H ω)} {o : List Empty}
    (htimely : Machine.Along (Node.step requestHash) Timely (start database) events)
    (hrun : Machine.exec (Node.step requestHash) (start database) events = some (s,o)) :
    s.Wakes ∧ ∀ hash b,s.Erasing hash b →
      ∃ thread s',s.advance thread none = some s' ∧ hash ∉ (s'.container.pending b).reliances := by
  have hattentive : s.Attentive := Machine.exec_preserves (I := fun _ (s : Node H ω) => s.Attentive)
      (fun _ _ _ _ _ h htimely hstep => h.step htimely hstep) (attentive_start database) htimely
      hrun
  exact ⟨hattentive.wakes,fun _ _ h => h.erased⟩

end Node

end WakeUps

namespace Node

def sampleMicro : Block ℕ := .micro ⟨30,1,0,29,false,fun _ => 20⟩

def sampleTip : Block ℕ := .request ⟨20,1,1,0,19,[]⟩

def tipMissing : Refusal := ⟨.invalidRequest,fun i => if i = 0 then .gapPrevious else .progress⟩

/-- The first thread validates the micro block and begins to register it. -/
def registerFirst : List (Event ℕ (Fin 3)) :=
  [.arrive 0 sampleMicro false,.advance 0 none,.advance 0 none,.advance 0 (some tipMissing),
    .advance 0 none]

/-- The second thread stores the block of the tip, and the third one releases its hash. -/
def releaseTip : List (Event ℕ (Fin 3)) :=
  [.arrive 1 sampleTip true,.advance 1 none,.advance 1 none,.advance 1 none,.advance 1 none,
    .write,.process 2 sampleTip,.advance 2 none]

theorem exec_wakes_sample :
    ∃ s o,Machine.exec (step Ledger.Config.sample.requestHash) (start ∅)
        (registerFirst ++ .advance 0 none::releaseTip) = some (s,o) ∧
      20 ∈ (s.container.pending 30).reliances ∧ s.Wakes ∧ ∀ hash b,s.Erasing hash b →
        ∃ thread s',s.advance thread none = some s' ∧
          hash ∉ (s'.container.pending b).reliances := by
  have hrun : (Machine.exec (step Ledger.Config.sample.requestHash) (start ∅)
      (registerFirst ++ .advance 0 none::releaseTip)).map
      (fun r => decide (20 ∈ (r.1.container.pending 30).reliances)) = some true := by
    decide +kernel
  have htimely : Machine.checks (step Ledger.Config.sample.requestHash)
      (fun s e => decide (s.Timely e)) (start ∅) (registerFirst ++ .advance 0 none::releaseTip) =
      true := by
    decide +kernel
  obtain ⟨⟨s,o⟩,hr,hmem⟩ := Option.map_eq_some_iff.mp hrun
  have halong := Machine.along_of_decide htimely
  exact ⟨s,o,hr,of_decide_eq_true hmem,exec_wakes halong hr⟩

/-- A release between the two parts of the registration is missed by the micro block. -/
theorem release_between_halves :
    ∃ s o,Machine.exec (step Ledger.Config.sample.requestHash) (start ∅)
        (registerFirst ++ releaseTip ++ [.advance 2 none,.advance 0 none]) = some (s,o) ∧
      20 ∈ (s.container.pending 30).reliances ∧ s.container.hashDependencyTable = [] ∧
      20 ∈ s.container.database ∧ ¬ s.Wakes := by
  have hrun : (Machine.exec (step Ledger.Config.sample.requestHash) (start ∅)
      (registerFirst ++ releaseTip ++ [.advance 2 none,.advance 0 none])).map
      (fun r => (decide (20 ∈ (r.1.container.pending 30).reliances),
        r.1.container.hashDependencyTable,decide (20 ∈ r.1.container.database),
        decide (∀ t,(r.1.threads t).erases = none))) = some (true,[],true,true) := by
    decide +kernel
  obtain ⟨⟨s,o⟩,hr,heq⟩ := Option.map_eq_some_iff.mp hrun
  simp only [Prod.mk.injEq,decide_eq_true_eq] at heq
  obtain ⟨hmem,htable,hdatabase,hnone⟩ := heq
  refine ⟨s,o,hr,hmem,htable,hdatabase,fun hwakes => ?_⟩
  rcases hwakes 20 30 hmem with ⟨t,chains,ht,-⟩ | hreg
  · rw [hnone t] at ht
    cases ht
  · rw [Registered,htable] at hreg
    cases hreg.1

end Node

end LogosCore.Cache
