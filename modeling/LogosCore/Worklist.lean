import Mathlib

/-!
# Items that workers take from chains

Items are accepted once, wait in chains ordered by a rank, are taken from the front of a chain by
one of several workers, and are handed on when they are found to be good. What is known about
them is kept apart from the chains: which identifiers are cached, which are present beyond the
chains, and which items are locked. In any interleaving an item is handed on at most once, the items
of a chain in the order of their ranks, and an identifier is cached as long as its item waits.
-/

namespace Worklist

open Function
open Function (update)
open List (map_append map_cons map_nil mem_append mem_singleton)

/-- What tells items apart and where they stand. -/
structure Keys (α ι κ : Type) where
  ident : α → ι
  chain : α → κ
  rank : α → ℕ

inductive Role (α : Type)
  | free
  | adding (a : α)
  | holding (a : α)
  | storing (a : α)
  | settled (a : α)

namespace Role

variable {α : Type}

/-- The item that a worker has taken from its chain. -/
def held : Role α → Option α
  | holding a => some a
  | storing a => some a
  | settled a => some a
  | _ => none

/-- The item that a worker has handed on and not taken out of its chain yet. -/
def stored : Role α → Option α
  | storing a => some a
  | settled a => some a
  | _ => none

/-- The item that a worker puts into its chain. -/
def added : Role α → Option α
  | adding a => some a
  | _ => none

/-- The item that a worker has to take out of its chain. -/
def done : Role α → Option α
  | settled a => some a
  | _ => none

theorem held_of_stored {r : Role α} {a : α} (h : r.stored = some a) : r.held = some a := by
  cases r with
  | storing b => exact h
  | settled b => exact h
  | free => cases h
  | adding b => cases h
  | holding b => cases h

theorem stored_of_done {r : Role α} {a : α} (h : r.done = some a) : r.stored = some a := by
  cases r with
  | settled b => exact h
  | free => cases h
  | adding b => cases h
  | holding b => cases h
  | storing b => cases h

end Role

/-- The items in the chains and handed on, what is known of them, and the workers' roles. -/
structure Shelf (α ι ω : Type) where
  items : Set α
  cached : Set ι
  present : Set ι
  handed : List α
  locked : Set ι
  roles : ω → Role α

section Steps

variable {α ι κ ω : Type} [DecidableEq ω]

/-- An item has a place of its own in its chain, behind those taken or handed on. -/
structure Fits (K : Keys α ι κ) (strict : Set κ) (S : Shelf α ι ω) (a : α) : Prop where
  place : ∀ b ∈ S.items,K.chain b = K.chain a → K.rank b ≠ K.rank a
  behind : ∀ b ∈ S.items,K.chain b = K.chain a → K.ident b ∈ S.locked → K.rank b < K.rank a
  later : K.chain a ∈ strict → ∀ b ∈ S.handed,K.chain b = K.chain a → K.rank b < K.rank a

inductive Step (K : Keys α ι κ) (strict : Set κ) (S : Shelf α ι ω) : Shelf α ι ω → Prop
  | accept (w : ω) (a : α) (hw : S.roles w = .free) (hcached : K.ident a ∉ S.cached)
      (hpresent : K.ident a ∉ S.present) :
      Step K strict S { S with
        cached := insert (K.ident a) S.cached
        roles := Function.update S.roles w (.adding a) }
  | shelve (w : ω) (a : α) (hw : S.roles w = .adding a) (hfits : Fits K strict S a) :
      Step K strict S { S with
        items := insert a S.items
        locked := S.locked \ {K.ident a}
        roles := Function.update S.roles w .free }
  | take (w : ω) (a : α) (hw : S.roles w = .free) (hmem : a ∈ S.items)
      (hfront : ∀ b ∈ S.items,K.chain b = K.chain a → K.rank a ≤ K.rank b)
      (hlock : K.ident a ∉ S.locked) :
      Step K strict S { S with
        locked := insert (K.ident a) S.locked
        roles := Function.update S.roles w (.holding a) }
  | putBack (w : ω) (a : α) (hw : S.roles w = .holding a) :
      Step K strict S { S with
        locked := S.locked \ {K.ident a}
        roles := Function.update S.roles w .free }
  | store (w : ω) (a : α) (hw : S.roles w = .holding a) :
      Step K strict S { S with
        handed := S.handed ++ [a]
        present := insert (K.ident a) S.present
        roles := Function.update S.roles w (.storing a) }
  | forget (w : ω) (a : α) (hw : S.roles w = .storing a) :
      Step K strict S { S with
        cached := S.cached \ {K.ident a}
        roles := Function.update S.roles w (.settled a) }
  | remove (w : ω) (a : α) (hw : S.roles w = .settled a) :
      Step K strict S { S with
        items := S.items \ {a}
        locked := S.locked \ {K.ident a}
        roles := Function.update S.roles w .free }

structure Orderly (K : Keys α ι κ) (strict : Set κ) (S : Shelf α ι ω) : Prop where
  idents : ∀ a ∈ S.items,∀ b ∈ S.items,K.ident a = K.ident b → a = b
  places : ∀ a ∈ S.items,∀ b ∈ S.items,K.chain a = K.chain b → K.rank a = K.rank b → a = b
  added : ∀ w a,(S.roles w).added = some a → K.ident a ∈ S.cached ∧ K.ident a ∉ S.present ∧
    ∀ b ∈ S.items,K.ident b ≠ K.ident a
  addedOnce : ∀ w w' a a',(S.roles w).added = some a → (S.roles w').added = some a' →
    K.ident a = K.ident a' → w = w'
  held : ∀ w a,(S.roles w).held = some a → a ∈ S.items ∧ K.ident a ∈ S.locked ∧
    ∀ b ∈ S.items,K.chain b = K.chain a → K.rank a ≤ K.rank b
  heldOnce : ∀ w w' a,(S.roles w).held = some a → (S.roles w').held = some a → w = w'
  stored : ∀ w a,(S.roles w).stored = some a → a ∈ S.handed
  unstored : ∀ a ∈ S.items,K.ident a ∈ S.handed.map K.ident → ∃ w,(S.roles w).stored = some a
  cached : ∀ i,i ∈ S.cached ↔ (∃ w a,(S.roles w).added = some a ∧ K.ident a = i) ∨
    ∃ a ∈ S.items,K.ident a = i ∧ ∀ w,(S.roles w).done ≠ some a
  present : ∀ a ∈ S.handed,K.ident a ∈ S.present
  once : (S.handed.map K.ident).Nodup
  ordered : S.handed.Pairwise fun a b => K.chain a = K.chain b → K.chain a ∈ strict →
    K.rank a < K.rank b
  above : ∀ a ∈ S.handed,∀ b ∈ S.items,K.ident b ∉ S.handed.map K.ident → K.chain a = K.chain b →
    K.chain a ∈ strict → K.rank a < K.rank b

variable {K : Keys α ι κ} {strict : Set κ} {S S' : Shelf α ι ω} {w w' : ω} {a b : α}

/-! ## What a new role of a worker changes -/

section Updates

variable {f : Role α → Option α} {roles : ω → Role α} {r r0 : Role α}

/-- Nothing, where the new role has the same item as the old one. -/
theorem apply_update (f : Role α → Option α) (r : Role α) (hw : roles w = r0) (h : f r = f r0)
    (w' : ω) : f (update roles w r w') = f (roles w') := by
  rcases eq_or_ne w' w with rfl | hne
  · rw [update_self,hw,h]
  · rw [update_of_ne hne]

/-- An item is that of the new role or that of another worker. -/
theorem update_cases (hb : f (update roles w r w') = some b) :
    w' = w ∧ f r = some b ∨ w' ≠ w ∧ f (roles w') = some b := by
  rcases eq_or_ne w' w with rfl | hne
  · rw [update_self] at hb
    exact .inl ⟨rfl,hb⟩
  · rw [update_of_ne hne] at hb
    exact .inr ⟨hne,hb⟩

/-- A worker whose role has no item is not the one that is asked for. -/
theorem update_eq_some (h : f r = none) (hb : f (update roles w r w') = some b) :
    w' ≠ w ∧ f (roles w') = some b :=
  (update_cases hb).resolve_left fun hself => by cases h.symm.trans hself.2

/-- The roles of the others stay. -/
theorem apply_update_of_ne (hne : w' ≠ w) : f (update roles w r w') = f (roles w') := by
  rw [update_of_ne hne]

theorem apply_update_self : f (update roles w r w) = f r := by
  rw [update_self]

/-- A worker whose old role has no item keeps none from being found. -/
theorem update_of_some (hw : roles w = r0) (h : f r0 = none) (hb : f (roles w') = some b) :
    f (update roles w r w') = some b := by
  have hne : w' ≠ w := by
    rintro rfl
    rw [hw,h] at hb
    cases hb
  rw [update_of_ne hne,hb]

end Updates

namespace Orderly

variable (h : Orderly K strict S)
include h

/-- What is stored is in its chain. -/
theorem mem_of_stored (hw : (S.roles w).stored = some a) : a ∈ S.items :=
  (h.held w a (Role.held_of_stored hw)).1

/-- An identifier that is neither cached nor present has no item. -/
theorem ident_ne (hcached : K.ident a ∉ S.cached)
    (hpresent : K.ident a ∉ S.present) : ∀ b ∈ S.items,K.ident b ≠ K.ident a := by
  intro b hb heq
  by_cases hdone : ∃ w,(S.roles w).done = some b
  · obtain ⟨w,hw⟩ := hdone
    have hstored := h.stored w b (Role.stored_of_done hw)
    exact hpresent (heq ▸ h.present b hstored)
  · exact hcached ((h.cached _).mpr (.inr ⟨b,hb,heq,fun w hw => hdone ⟨w,hw⟩⟩))

/-- An item that a worker has just taken is not handed on. -/
theorem notMem_handed (hw : S.roles w = .holding a) : K.ident a ∉ S.handed.map K.ident := by
  intro hmem
  have hheld : (S.roles w).held = some a := by rw [hw]; rfl
  obtain ⟨w',hw'⟩ := h.unstored a (h.held w a hheld).1 hmem
  have hsame := h.heldOnce w w' a hheld (Role.held_of_stored hw')
  rw [← hsame,hw] at hw'
  cases hw'

/-- No other worker has an item with the identifier of the one that a worker has. -/
theorem ident_ne_of_held (hw : (S.roles w).held = some a)
    (hw' : (S.roles w').held = some b) (hne : w' ≠ w) : K.ident b ≠ K.ident a := by
  intro heq
  have hab : b = a := h.idents b (h.held w' b hw').1 a (h.held w a hw).1 heq
  exact hne (h.heldOnce w' w a (hab ▸ hw') hw)

theorem accept (hw : S.roles w = .free) (hcached : K.ident a ∉ S.cached)
    (hpresent : K.ident a ∉ S.present) :
    Orderly K strict { S with
      cached := insert (K.ident a) S.cached
      roles := update S.roles w (.adding a) } := by
  have hheld := apply_update Role.held (.adding a) hw rfl
  have hstored := apply_update Role.stored (.adding a) hw rfl
  have hdone := apply_update Role.done (.adding a) hw rfl
  have hfresh : ∀ w' b,(S.roles w').added = some b → K.ident b ≠ K.ident a :=
    fun w' b hb heq => hcached (heq ▸ (h.added w' b hb).1)
  refine
    { h with
      added := ?_
      addedOnce := ?_
      held := by simpa only [hheld] using h.held
      heldOnce := by simpa only [hheld] using h.heldOnce
      stored := by simpa only [hstored] using h.stored
      unstored := by simpa only [hstored] using h.unstored
      cached := ?_ }
  · intro w' b hb
    rcases update_cases hb with ⟨rfl,⟨⟩⟩ | ⟨-,hb⟩
    · exact ⟨Set.mem_insert _ _,hpresent,h.ident_ne hcached hpresent⟩
    · obtain ⟨hin,hrest⟩ := h.added w' b hb
      exact ⟨Set.mem_insert_of_mem _ hin,hrest⟩
  · intro w1 w2 a1 a2 h1 h2 heq
    rcases update_cases h1 with ⟨rfl,⟨⟩⟩ | ⟨-,ho1⟩ <;>
      rcases update_cases h2 with ⟨rfl,⟨⟩⟩ | ⟨-,ho2⟩
    · rfl
    · exact absurd heq.symm (hfresh w2 a2 ho2)
    · exact absurd heq (hfresh w1 a1 ho1)
    · exact h.addedOnce w1 w2 a1 a2 ho1 ho2 heq
  · intro i
    simp only [hdone]
    constructor
    · rintro (rfl | hi)
      · exact .inl ⟨w,a,apply_update_self,rfl⟩
      · rcases (h.cached i).mp hi with ⟨w',b,hb,hident⟩ | hitem
        · exact .inl ⟨w',b,update_of_some hw rfl hb,hident⟩
        · exact .inr hitem
    · rintro (⟨w',b,hb,hident⟩ | hitem)
      · rcases update_cases hb with ⟨rfl,⟨⟩⟩ | ⟨-,hb⟩
        · exact .inl hident.symm
        · exact .inr ((h.cached i).mpr (.inl ⟨w',b,hb,hident⟩))
      · exact .inr ((h.cached i).mpr (.inr hitem))

theorem shelve (hw : S.roles w = .adding a) (hfits : Fits K strict S a) : Orderly K strict { S with
      items := insert a S.items
      locked := S.locked \ {K.ident a}
      roles := update S.roles w .free } := by
  have hheld := apply_update Role.held .free hw rfl
  have hstored := apply_update Role.stored .free hw rfl
  have hdone := apply_update Role.done .free hw rfl
  obtain ⟨hcached,hpresent,hnew⟩ := h.added w a (by rw [hw]; rfl)
  have hhanded : K.ident a ∉ S.handed.map K.ident := by
    intro hmem
    obtain ⟨b,hb,heq⟩ := List.mem_map.mp hmem
    exact hpresent (heq ▸ h.present b hb)
  refine
    { h with
      idents := ?_
      places := ?_
      added := ?_
      addedOnce := ?_
      held := ?_
      heldOnce := by simpa only [hheld] using h.heldOnce
      stored := by simpa only [hstored] using h.stored
      unstored := ?_
      cached := ?_
      above := ?_ }
  · rintro b (rfl | hb) b' (rfl | hb') heq
    · rfl
    · exact absurd heq.symm (hnew b' hb')
    · exact absurd heq (hnew b hb)
    · exact h.idents b hb b' hb' heq
  · rintro b (rfl | hb) b' (rfl | hb') hchain hrank
    · rfl
    · exact absurd hrank.symm (hfits.place b' hb' hchain.symm)
    · exact absurd hrank (hfits.place b hb hchain)
    · exact h.places b hb b' hb' hchain hrank
  · intro w' b hb
    obtain ⟨hne,hadds⟩ := update_eq_some rfl hb
    obtain ⟨hin,hout,hother⟩ := h.added w' b hadds
    refine ⟨hin,hout,?_⟩
    rintro b' (rfl | hb') heq
    · exact hne (h.addedOnce w' w b b' hadds (by rw [hw]; rfl) heq.symm)
    · exact hother b' hb' heq
  · intro w1 w2 a1 a2 h1 h2 heq
    exact h.addedOnce w1 w2 a1 a2 (update_eq_some rfl h1).2 (update_eq_some rfl h2).2 heq
  · intro w' b hb
    rw [hheld] at hb
    obtain ⟨hmem,hlock,hfront⟩ := h.held w' b hb
    refine ⟨.inr hmem,⟨hlock,fun heq => hnew b hmem heq⟩,?_⟩
    rintro b' (rfl | hb') hchain
    · exact (hfits.behind b hmem hchain.symm hlock).le
    · exact hfront b' hb' hchain
  · rintro b (rfl | hb) hmem
    · exact absurd hmem hhanded
    · simpa only [hstored] using h.unstored b hb hmem
  · intro i
    simp only [hdone]
    have hsettled : ∀ w',(S.roles w').done ≠ some a := by
      intro w' hw'
      exact hnew a (h.mem_of_stored (Role.stored_of_done hw')) rfl
    constructor
    · intro hi
      rcases (h.cached i).mp hi with ⟨w',b,hb,hident⟩ | ⟨b,hb,hident,hdone⟩
      · rcases eq_or_ne w' w with rfl | hne
        · rw [hw] at hb
          cases hb
          exact .inr ⟨a,.inl rfl,hident,hsettled⟩
        · exact .inl ⟨w',b,(apply_update_of_ne hne).trans hb,hident⟩
      · exact .inr ⟨b,.inr hb,hident,hdone⟩
    · rintro (⟨w',b,hb,hident⟩ | ⟨b,rfl | hb,hident,hdone⟩)
      · exact (h.cached i).mpr (.inl ⟨w',b,(update_eq_some rfl hb).2,hident⟩)
      · exact hident ▸ hcached
      · exact (h.cached i).mpr (.inr ⟨b,hb,hident,hdone⟩)
  · rintro b hb b' (rfl | hb') hnot hchain hstrict
    · exact hfits.later (hchain ▸ hstrict) b hb hchain
    · exact h.above b hb b' hb' hnot hchain hstrict

theorem take (hw : S.roles w = .free) (hmem : a ∈ S.items)
    (hfront : ∀ b ∈ S.items,K.chain b = K.chain a → K.rank a ≤ K.rank b)
    (hlock : K.ident a ∉ S.locked) :
    Orderly K strict { S with
      locked := insert (K.ident a) S.locked
      roles := update S.roles w (.holding a) } := by
  have hadded := apply_update Role.added (.holding a) hw rfl
  have hstored := apply_update Role.stored (.holding a) hw rfl
  have hdone := apply_update Role.done (.holding a) hw rfl
  have hothers : ∀ w',(S.roles w').held ≠ some a := fun w' hw' => hlock (h.held w' a hw').2.1
  refine
    { h with
      added := by simpa only [hadded] using h.added
      addedOnce := by simpa only [hadded] using h.addedOnce
      held := ?_
      heldOnce := ?_
      stored := by simpa only [hstored] using h.stored
      unstored := by simpa only [hstored] using h.unstored
      cached := by simpa only [hadded,hdone] using h.cached }
  · intro w' b hb
    rcases update_cases hb with ⟨rfl,⟨⟩⟩ | ⟨-,hb⟩
    · exact ⟨hmem,.inl rfl,hfront⟩
    · obtain ⟨hin,hlocked,hleast⟩ := h.held w' b hb
      exact ⟨hin,.inr hlocked,hleast⟩
  · intro w1 w2 b h1 h2
    rcases update_cases h1 with ⟨rfl,⟨⟩⟩ | ⟨-,ho1⟩ <;>
      rcases update_cases h2 with ⟨rfl,⟨⟩⟩ | ⟨-,ho2⟩
    · rfl
    · exact absurd ho2 (hothers w2)
    · exact absurd ho1 (hothers w1)
    · exact h.heldOnce w1 w2 b ho1 ho2

theorem putBack (hw : S.roles w = .holding a) : Orderly K strict { S with
      locked := S.locked \ {K.ident a}
      roles := update S.roles w .free } := by
  have hadded := apply_update Role.added .free hw rfl
  have hstored := apply_update Role.stored .free hw rfl
  have hdone := apply_update Role.done .free hw rfl
  refine
    { h with
      added := by simpa only [hadded] using h.added
      addedOnce := by simpa only [hadded] using h.addedOnce
      held := ?_
      heldOnce := ?_
      stored := by simpa only [hstored] using h.stored
      unstored := by simpa only [hstored] using h.unstored
      cached := by simpa only [hadded,hdone] using h.cached }
  · intro w' b hb
    obtain ⟨hne,hb⟩ := update_eq_some rfl hb
    obtain ⟨hin,hlocked,hleast⟩ := h.held w' b hb
    exact ⟨hin,⟨hlocked,h.ident_ne_of_held (by rw [hw]; rfl) hb hne⟩,hleast⟩
  · intro w1 w2 b h1 h2
    exact h.heldOnce w1 w2 b (update_eq_some rfl h1).2 (update_eq_some rfl h2).2

theorem store (hw : S.roles w = .holding a) : Orderly K strict { S with
      handed := S.handed ++ [a]
      present := insert (K.ident a) S.present
      roles := update S.roles w (.storing a) } := by
  have hadded := apply_update Role.added (.storing a) hw rfl
  have hheld := apply_update Role.held (.storing a) hw rfl
  have hdone := apply_update Role.done (.storing a) hw rfl
  obtain ⟨hmem,-,hfront⟩ := h.held w a (by rw [hw]; rfl)
  have hnot := h.notMem_handed hw
  refine
    { h with
      added := ?_
      addedOnce := by simpa only [hadded] using h.addedOnce
      held := by simpa only [hheld] using h.held
      heldOnce := by simpa only [hheld] using h.heldOnce
      stored := ?_
      unstored := ?_
      cached := by simpa only [hadded,hdone] using h.cached
      present := ?_
      once := ?_
      ordered := ?_
      above := ?_ }
  · intro w' b hb
    rw [hadded] at hb
    obtain ⟨hin,hout,hother⟩ := h.added w' b hb
    refine ⟨hin,?_,hother⟩
    rintro (heq | hpresent)
    · exact hother a hmem heq.symm
    · exact hout hpresent
  · intro w' b hb
    rcases update_cases hb with ⟨rfl,⟨⟩⟩ | ⟨-,hb⟩
    · exact List.mem_append_right _ List.mem_cons_self
    · exact List.mem_append_left _ (h.stored w' b hb)
  · intro b hb hin
    rw [map_append,mem_append,map_cons,map_nil,mem_singleton] at hin
    rcases hin with hin | heq
    · obtain ⟨w',hw'⟩ := h.unstored b hb hin
      exact ⟨w',update_of_some hw rfl hw'⟩
    · rw [h.idents b hb a hmem heq]
      exact ⟨w,apply_update_self⟩
  · intro b hb
    rcases mem_append.mp hb with hb | hb
    · exact .inr (h.present b hb)
    · exact .inl (congrArg K.ident (mem_singleton.mp hb))
  · rw [map_append,map_cons,map_nil]
    exact List.nodup_append.mpr ⟨h.once,List.nodup_singleton _,fun i hi j hj heq => hnot
      (mem_singleton.mp hj ▸ heq ▸ hi)⟩
  · refine List.pairwise_append.mpr ⟨h.ordered,List.pairwise_singleton _ _,fun b hb b' hb' => ?_⟩
    rw [mem_singleton.mp hb']
    exact h.above b hb a hmem hnot
  · intro b hb b' hb' hnot' hchain hstrict
    rw [map_append,mem_append,not_or,map_cons,map_nil,mem_singleton] at hnot'
    rcases mem_append.mp hb with hb | hb
    · exact h.above b hb b' hb' hnot'.1 hchain hstrict
    · rw [mem_singleton.mp hb] at hchain ⊢
      refine lt_of_le_of_ne (hfront b' hb' hchain.symm) fun hrank => ?_
      exact hnot'.2 (congrArg K.ident (h.places a hmem b' hb' hchain hrank).symm)

theorem forget (hw : S.roles w = .storing a) : Orderly K strict { S with
      cached := S.cached \ {K.ident a}
      roles := update S.roles w (.settled a) } := by
  have hadded := apply_update Role.added (.settled a) hw rfl
  have hheld := apply_update Role.held (.settled a) hw rfl
  have hstored := apply_update Role.stored (.settled a) hw rfl
  obtain ⟨hmem,-,-⟩ := h.held w a (by rw [hw]; rfl)
  refine
    { h with
      added := ?_
      addedOnce := by simpa only [hadded] using h.addedOnce
      held := by simpa only [hheld] using h.held
      heldOnce := by simpa only [hheld] using h.heldOnce
      stored := by simpa only [hstored] using h.stored
      unstored := by simpa only [hstored] using h.unstored
      cached := ?_ }
  · intro w' b hb
    rw [hadded] at hb
    obtain ⟨hin,hout,hother⟩ := h.added w' b hb
    exact ⟨⟨hin,fun heq => hother a hmem heq.symm⟩,hout,hother⟩
  · intro i
    simp only [hadded]
    constructor
    · rintro ⟨hi,hne⟩
      rcases (h.cached i).mp hi with hadd | ⟨b,hb,rfl,hnone⟩
      · exact .inl hadd
      · refine .inr ⟨b,hb,rfl,fun w' hw' => ?_⟩
        rcases update_cases hw' with ⟨rfl,⟨⟩⟩ | ⟨-,hw'⟩
        · exact hne rfl
        · exact hnone w' hw'
    · rintro (⟨w',b,hb,rfl⟩ | ⟨b,hb,rfl,hnone⟩)
      · exact ⟨(h.added w' b hb).1,fun heq => (h.added w' b hb).2.2 a hmem heq.symm⟩
      · refine ⟨(h.cached _).mpr (.inr ⟨b,hb,rfl,fun w' hw' => ?_⟩),fun heq => ?_⟩
        · exact hnone w' (update_of_some hw rfl hw')
        · exact hnone w (apply_update_self.trans (by rw [h.idents b hb a hmem heq]; rfl))

theorem remove (hw : S.roles w = .settled a) : Orderly K strict { S with
      items := S.items \ {a}
      locked := S.locked \ {K.ident a}
      roles := update S.roles w .free } := by
  have hadded := apply_update Role.added .free hw rfl
  have hholds : (S.roles w).held = some a := by rw [hw]; rfl
  refine
    { h with
      idents := fun b hb b' hb' => h.idents b hb.1 b' hb'.1
      places := fun b hb b' hb' => h.places b hb.1 b' hb'.1
      added := ?_
      addedOnce := by simpa only [hadded] using h.addedOnce
      held := ?_
      heldOnce := ?_
      stored := ?_
      unstored := ?_
      cached := ?_
      above := fun b hb b' hb' => h.above b hb b' hb'.1 }
  · intro w' b hb
    rw [hadded] at hb
    obtain ⟨hin,hout,hother⟩ := h.added w' b hb
    exact ⟨hin,hout,fun b' hb' => hother b' hb'.1⟩
  · intro w' b hb
    obtain ⟨hne,hb⟩ := update_eq_some rfl hb
    obtain ⟨hin,hlocked,hleast⟩ := h.held w' b hb
    have hident := h.ident_ne_of_held hholds hb hne
    exact ⟨⟨hin,fun heq => hident (congrArg K.ident heq)⟩,⟨hlocked,hident⟩,
      fun b' hb' => hleast b' hb'.1⟩
  · intro w1 w2 b h1 h2
    exact h.heldOnce w1 w2 b (update_eq_some rfl h1).2 (update_eq_some rfl h2).2
  · intro w' b hb
    exact h.stored w' b (update_eq_some rfl hb).2
  · intro b hb hin
    obtain ⟨w',hw'⟩ := h.unstored b hb.1 hin
    have hne : w' ≠ w := by
      rintro rfl
      rw [hw] at hw'
      exact hb.2 (Option.some_inj.mp hw').symm
    exact ⟨w',(apply_update_of_ne hne).trans hw'⟩
  · intro i
    simp only [hadded]
    constructor
    · intro hi
      rcases (h.cached i).mp hi with hadd | ⟨b,hb,rfl,hnone⟩
      · exact .inl hadd
      · refine .inr ⟨b,⟨hb,fun heq => ?_⟩,rfl,fun w' hw' => hnone w' (update_eq_some rfl hw').2⟩
        rw [Set.mem_singleton_iff.mp heq] at hnone
        exact hnone w (by rw [hw]; rfl)
    · rintro (hadd | ⟨b,hb,rfl,hnone⟩)
      · exact (h.cached i).mpr (.inl hadd)
      · refine (h.cached _).mpr (.inr ⟨b,hb.1,rfl,fun w' hw' => ?_⟩)
        rcases eq_or_ne w' w with rfl | hne
        · rw [hw] at hw'
          exact hb.2 (Option.some_inj.mp hw').symm
        · exact hnone w' ((apply_update_of_ne hne).trans hw')

/-- Every step keeps the shelf orderly. -/
theorem step (hstep : Step K strict S S') : Orderly K strict S' := by
  cases hstep with
  | accept w a hw hcached hpresent => exact h.accept hw hcached hpresent
  | shelve w a hw hfits => exact h.shelve hw hfits
  | take w a hw hmem hfront hlock => exact h.take hw hmem hfront hlock
  | putBack w a hw => exact h.putBack hw
  | store w a hw => exact h.store hw
  | forget w a hw => exact h.forget hw
  | remove w a hw => exact h.remove hw

theorem steps (hsteps : Relation.ReflTransGen (Step K strict) S S') : Orderly K strict S' := by
  induction hsteps with
  | refl => exact h
  | tail _ hstep ih => exact ih.step hstep

end Orderly

/-- A shelf with nothing on it is orderly. -/
theorem orderly_empty (present : Set ι) :
    Orderly K strict (⟨∅,∅,present,[],∅,fun _ => .free⟩ : Shelf α ι ω) := by
  constructor <;> simp [Role.added,Role.held,Role.stored]

end Steps

end Worklist
