import Mathlib

/-!
# Reactive machines

Deterministic machines that answer an event with outputs and may stop: their runs, conditions on
the steps of a run, and the invariant rule that also sees the outputs made so far.
-/

namespace Machine

variable {S E O : Type}

/-- Run a list of events; `none` when a step stops the machine. -/
def exec (step : S → E → Option (S × List O)) : S → List E → Option (S × List O)
  | s,[] => some (s,[])
  | s,e :: es =>
    match step s e with
    | none => none
    | some (s',o) => (exec step s' es).map fun r => (r.1,o ++ r.2)

/-- A condition that holds before every step of a run. -/
def Along (step : S → E → Option (S × List O)) (P : S → E → Prop) : S → List E → Prop
  | _,[] => True
  | s,e :: es => P s e ∧ ∀ s' o,step s e = some (s',o) → Along step P s' es

variable {step : S → E → Option (S × List O)} {P Q : S → E → Prop}

@[simp] theorem exec_nil (s : S) : exec step s [] = some (s,[]) := rfl

variable {s s' : S} {es : List E} {o : List O}

theorem exec_cons_of_step {e : E} (h : step s e = some (s',o)) :
    exec step s (e :: es) = (exec step s' es).map fun r => (r.1,o ++ r.2) := by
  simp [exec,h]

theorem exec_cons_eq_some {e : E} (h : exec step s (e :: es) = some (s',o)) :
    ∃ s1 o1 o2,step s e = some (s1,o1) ∧ exec step s1 es = some (s',o2) ∧ o = o1 ++ o2 := by
  simp only [exec] at h
  split at h
  · cases h
  · next s1 o1 h1 =>
    obtain ⟨⟨s2,o2⟩,h2,heq⟩ := Option.map_eq_some_iff.mp h
    cases heq
    exact ⟨s1,o1,o2,h1,h2,rfl⟩

theorem along_of_forall (h : ∀ e ∈ es,∀ s,P s e) : Along step P s es := by
  induction es generalizing s with
  | nil => trivial
  | cons e es ih =>
    exact ⟨h e List.mem_cons_self s,fun _ _ _ => ih fun e he => h e (List.mem_cons_of_mem _ he)⟩

/-- Run the machine and check a condition before every step. -/
def checks (step : S → E → Option (S × List O)) (p : S → E → Bool) : S → List E → Bool
  | _,[] => true
  | s,e :: es => p s e && ((step s e).map fun r => checks step p r.1 es).getD true

theorem along_of_checks {p : S → E → Bool} (h : checks step p s es = true) :
    Along step (fun s e => p s e = true) s es := by
  induction es generalizing s with
  | nil => trivial
  | cons e es ih =>
    obtain ⟨hp,hrest⟩ := Bool.and_eq_true_iff.mp h
    refine ⟨hp,fun s' o hstep => ih ?_⟩
    rw [hstep] at hrest
    exact hrest

theorem along_mono (h : Along step P s es) (hPQ : ∀ s e,P s e → Q s e) : Along step Q s es := by
  induction es generalizing s with
  | nil => trivial
  | cons e es ih => exact ⟨hPQ s e h.1,fun s' o hstep => ih (h.2 s' o hstep)⟩

theorem along_of_decide [∀ s e,Decidable (P s e)]
    (h : checks step (fun s e => decide (P s e)) s es = true) : Along step P s es :=
  along_mono (along_of_checks h) fun _ _ => of_decide_eq_true

theorem along_true (s : S) (es : List E) : Along step (fun _ _ => True) s es :=
  along_of_forall fun _ _ _ => trivial

/-- What each step keeps holds after any run whose steps meet `P`, and the run does not stop. -/
theorem exec_invariant {I : List O → S → Prop}
    (hstep : ∀ log s e,I log s → P s e → ∃ s' o,step s e = some (s',o) ∧ I (log ++ o) s')
    {log : List O} (hs : I log s) (hP : Along step P s es) :
    ∃ s' o,exec step s es = some (s',o) ∧ I (log ++ o) s' := by
  induction es generalizing log s with
  | nil => exact ⟨s,[],rfl,by simpa using hs⟩
  | cons e es ih =>
    obtain ⟨s1,o1,h1,hinv1⟩ := hstep log s e hs hP.1
    obtain ⟨s2,o2,h2,hinv2⟩ := ih hinv1 (hP.2 s1 o1 h1)
    refine ⟨s2,o1 ++ o2,?_,by simpa using hinv2⟩
    rw [exec_cons_of_step h1,h2]
    rfl

/-- The same for machines that may stop: what each step keeps holds wherever a run arrives. -/
theorem exec_preserves_from {I : List O → S → Prop}
    (hstep : ∀ log s e s' o,I log s → P s e → step s e = some (s',o) → I (log ++ o) s')
    {log : List O} (hs : I log s) (hP : Along step P s es) (h : exec step s es = some (s',o)) :
    I (log ++ o) s' := by
  induction es generalizing log o s with
  | nil =>
    cases h
    simpa using hs
  | cons e es ih =>
    obtain ⟨s1,o1,o2,h1,h2,rfl⟩ := exec_cons_eq_some h
    have hnext := ih (hstep log s e s1 o1 hs hP.1 h1) (hP.2 s1 o1 h1) h2
    rwa [List.append_assoc] at hnext

theorem exec_preserves {I : List O → S → Prop}
    (hstep : ∀ log s e s' o,I log s → P s e → step s e = some (s',o) → I (log ++ o) s')
    (hs : I [] s) (hP : Along step P s es) (h : exec step s es = some (s',o)) : I o s' := by
  simpa using exec_preserves_from hstep hs hP h

/-- A property of every state a run passes through. -/
def Always (step : S → E → Option (S × List O)) (I : S → Prop) : S → List E → Prop
  | s,[] => I s
  | s,e :: es => I s ∧ ∀ s' o,step s e = some (s',o) → Always step I s' es

/-- Where a step keeps `I` exactly when it meets `P`, a run keeps it exactly when its steps do. -/
theorem always_iff_along {I : S → Prop}
    (hstep : ∀ s e s' o,I s → step s e = some (s',o) → (I s' ↔ P s e))
    (hstop : ∀ s e,I s → step s e = none → P s e) (hs : I s) :
    Always step I s es ↔ Along step P s es := by
  induction es generalizing s with
  | nil => exact ⟨fun _ => trivial,fun _ => hs⟩
  | cons e es ih =>
    cases h : step s e with
    | none =>
      refine ⟨fun _ => ⟨hstop s e hs h,fun s' o h' => ?_⟩,fun _ => ⟨hs,fun s' o h' => ?_⟩⟩
      · cases h.symm.trans h'
      · cases h.symm.trans h'
    | some r =>
      obtain ⟨s1,o1⟩ := r
      have hiff := hstep s e s1 o1 hs h
      constructor
      · intro halways
        have hrest := halways.2 s1 o1 h
        have hr : I s1 := by
          cases es with
          | nil => exact hrest
          | cons _ _ => exact hrest.1
        refine ⟨hiff.mp hr,fun s' o h' => ?_⟩
        cases h.symm.trans h'
        exact (ih hr).mp hrest
      · intro halong
        refine ⟨hs,fun s' o h' => ?_⟩
        cases h.symm.trans h'
        exact (ih (hiff.mpr halong.1)).mpr (halong.2 s1 o1 h)

theorem always_iff_along_of_exec {I J : S → Prop} {Ok : E → Prop}
    (hstep : ∀ s e s' o,Ok e → J s → I s → step s e = some (s',o) → J s' ∧ (I s' ↔ P s e))
    {r : S × List O} (hJ : J s) (hs : I s) (hok : ∀ e ∈ es,Ok e) (hrun : exec step s es = some r) :
    Always step I s es ↔ Along step P s es := by
  induction es generalizing s r with
  | nil => exact ⟨fun _ => trivial,fun _ => hs⟩
  | cons e es ih =>
    obtain ⟨s1,o1,o2,h,hrest,-⟩ := exec_cons_eq_some hrun
    obtain ⟨hJ1,hiff⟩ := hstep s e s1 o1 (hok e List.mem_cons_self) hJ hs h
    have hok' : ∀ e ∈ es,Ok e := fun e he => hok e (List.mem_cons_of_mem _ he)
    constructor
    · intro halways
      have hafter := halways.2 s1 o1 h
      have hI1 : I s1 := by
        cases es with
        | nil => exact hafter
        | cons _ _ => exact hafter.1
      refine ⟨hiff.mp hI1,fun s' o h' => ?_⟩
      cases h.symm.trans h'
      exact (ih hJ1 hI1 hok' hrest).mp hafter
    · intro halong
      refine ⟨hs,fun s' o h' => ?_⟩
      cases h.symm.trans h'
      exact (ih hJ1 (hiff.mpr halong.1) hok' hrest).mpr (halong.2 s1 o1 h)

section Gathering

variable {α : Type}

theorem exec_map_of_ignored {event : α → E} {as : List α}
    (h : ∀ a ∈ as,step s (event a) = some (s,[])) : exec step s (as.map event) = some (s,[]) := by
  induction as with
  | nil => rfl
  | cons a as ih =>
    have hrest := ih fun b hb => h b (List.mem_cons_of_mem _ hb)
    rw [List.map_cons,exec_cons_of_step (h a List.mem_cons_self),hrest]
    rfl

variable [DecidableEq α]

/-- The set of arrivals at the first moment at which they are enough. -/
def gather (enough : Finset α → Bool) : Finset α → List α → Finset α
  | G,[] => G
  | G,a :: as => if enough (insert a G) then insert a G else gather enough (insert a G) as

/-- A machine that counts distinct arrivals, acts when they are enough and ignores the rest. -/
theorem exec_gather {event : α → E} {enough : Finset α → Bool} {Ok : α → Prop} {Silent : O → Prop}
    {Waiting : Finset α → S → Prop} (Done : Finset α → S → List O → Prop)
    (hwait : ∀ G s a,Waiting G s → Ok a → a ∉ G → enough (insert a G) = false →
      ∃ s' o,step s (event a) = some (s',o) ∧ Waiting (insert a G) s' ∧ ∀ x ∈ o,Silent x)
    (hdone : ∀ G s a,Waiting G s → Ok a → a ∉ G → enough (insert a G) = true →
      ∃ s' o,step s (event a) = some (s',o) ∧ Done (insert a G) s' o)
    (hafter : ∀ G s o a,Done G s o → Ok a → step s (event a) = some (s,[]))
    {G : Finset α} {s : S} {as : List α} (hs : Waiting G s) (hok : ∀ a ∈ as,Ok a)
    (hnodup : as.Nodup) (hdisjoint : ∀ a ∈ as,a ∉ G) (hne : as ≠ [])
    (henough : enough (G ∪ as.toFinset) = true) :
    ∃ s' silent o,exec step s (as.map event) = some (s',silent ++ o) ∧
      (∀ x ∈ silent,Silent x) ∧ Done (gather enough G as) s' o := by
  induction as generalizing G s with
  | nil => exact absurd rfl hne
  | cons a as ih =>
    have hoka := hok a List.mem_cons_self
    have hok' : ∀ b ∈ as,Ok b := fun b hb => hok b (List.mem_cons_of_mem _ hb)
    obtain ⟨ha,hnodup'⟩ := List.nodup_cons.mp hnodup
    have haG := hdisjoint a List.mem_cons_self
    have hunion : insert a G ∪ as.toFinset = G ∪ (a :: as).toFinset := by
      rw [List.toFinset_cons,Finset.insert_union,Finset.union_insert]
    cases hreach : enough (insert a G) with
    | true =>
      obtain ⟨s1,o,hstep,hd⟩ := hdone G s a hs hoka haG hreach
      have hrest := exec_map_of_ignored fun b hb => hafter _ s1 o b hd (hok' b hb)
      refine ⟨s1,[],o,?_,by simp,?_⟩
      · rw [List.map_cons,exec_cons_of_step hstep,hrest]
        simp
      · rw [gather,if_pos hreach]
        exact hd
    | false =>
      obtain ⟨s1,o1,hstep,hw,hsilent⟩ := hwait G s a hs hoka haG hreach
      have hne' : as ≠ [] := by
        rintro rfl
        simp [hreach] at henough
      have hdisjoint' : ∀ b ∈ as,b ∉ insert a G := fun b hb hmem => by
        rcases Finset.mem_insert.mp hmem with rfl | hmem
        · exact ha hb
        · exact hdisjoint b (List.mem_cons_of_mem _ hb) hmem
      obtain ⟨s2,silent,o,hexec,hsilent',hd⟩ :=
        ih hw hok' hnodup' hdisjoint' hne' (by rw [hunion]; exact henough)
      refine ⟨s2,o1 ++ silent,o,?_,fun x hx => ?_,?_⟩
      · rw [List.map_cons,exec_cons_of_step hstep,hexec]
        simp
      · rcases List.mem_append.mp hx with hx | hx
        · exact hsilent x hx
        · exact hsilent' x hx
      · rw [gather,hreach]
        exact hd

end Gathering

section Interleaving

variable {ι : Type} [DecidableEq ι]

/-- Machines side by side: each event goes to one of them, and each keeps a log of its outputs. -/
def interleave (step : ι → S → E → Option (S × List O)) (n : ι → S × List O) (e : ι × E) :
    Option ((ι → S × List O) × List O) :=
  (step e.1 (n e.1).1 e.2).map fun r => (Function.update n e.1 (r.1,(n e.1).2 ++ r.2),r.2)

/-- If the machines of `G` each keep `L`, and each output is an old one or justified by what all of
them had sent, then so it is after any interleaving of their steps. -/
theorem exec_interleave {step : ι → S → E → Option (S × List O)} {G : ι → Prop}
    {L : ι → List O → S → Prop} {C : (ι → List O) → O → Prop}
    {P : (ι → S × List O) → ι × E → Prop}
    (hmono : ∀ f g x,(∀ j,f j ⊆ g j) → C f x → C g x)
    (hstep : ∀ n i e,G i → L i (n i).2 (n i).1 → P n (i,e) → ∃ s' o,
      step i (n i).1 e = some (s',o) ∧ L i ((n i).2 ++ o) s' ∧
      ∀ x ∈ o,x ∈ (n i).2 ∨ C (fun j => (n j).2) x)
    {n : ι → S × List O} {es : List (ι × E)}
    (hs : ∀ i,G i → L i (n i).2 (n i).1 ∧ ∀ x ∈ (n i).2,C (fun j => (n j).2) x)
    (hP : Along (interleave step) (fun n e => G e.1 ∧ P n e) n es) :
    ∃ n' o,exec (interleave step) n es = some (n',o) ∧
      ∀ i,G i → L i (n' i).2 (n' i).1 ∧ ∀ x ∈ (n' i).2,C (fun j => (n' j).2) x := by
  refine @exec_invariant _ _ _ _ _ _ _ (fun _ n => ∀ i,G i → L i (n i).2 (n i).1 ∧
    ∀ x ∈ (n i).2,C (fun j => (n j).2) x) (fun _ n e hn he => ?_) [] hs hP
  obtain ⟨i,e⟩ := e
  obtain ⟨s',o,hstep,hlocal,hout⟩ := hstep n i e he.1 (hn i he.1).1 he.2
  refine ⟨Function.update n i (s',(n i).2 ++ o),o,by simp [interleave,hstep],fun j hj => ?_⟩
  have hmore : ∀ x,C (fun j => (n j).2) x →
      C (fun j => (Function.update n i (s',(n i).2 ++ o) j).2) x := by
    refine fun x => hmono _ _ x fun k y hy => ?_
    by_cases hk : k = i
    · subst hk
      simpa using .inl hy
    · simpa [hk] using hy
  by_cases hji : j = i
  · subst hji
    rw [Function.update_self]
    refine ⟨hlocal,fun x hx => hmore x ?_⟩
    rcases List.mem_append.mp hx with hx | hx
    · exact (hn j hj).2 x hx
    · exact (hout x hx).elim ((hn j hj).2 x) id
  · rw [Function.update_of_ne hji]
    exact ⟨(hn j hj).1,fun x hx => hmore x ((hn j hj).2 x hx)⟩

end Interleaving

end Machine
