import Mathlib

/-! # Programs that may halt

A `Program ε S α` changes a state of type `S` and either returns a value or halts with a reason.
`wp x E Q s` says that from `s` the program ends in `Q`, or halts with a reason in `E`; the
rules below execute a program symbolically. `Ensures` is for what only concerns the value. -/
namespace LogosCore

abbrev Program (ε S α : Type) := StateT S (Except ε) α

namespace Program

variable {ε S α β γ : Type}

def halt (e : ε) : Program ε S α := StateT.lift (.error e)

/-- The value of a computation that may fail. -/
def need (o : Option α) (e : ε) : Program ε S α :=
  match o with
  | some a => pure a
  | none => halt e

@[simp] theorem run_need_some (a : α) (e : ε) (s : S) :
    StateT.run (need (some a) e : Program ε S α) s = pure (a,s) := rfl

variable {c : Prop} {x y : Program ε S α} {a : α} {e : ε} {o : Option α} {l : List γ}

variable {f : α → Program ε S β}

section Wp

variable {E F : ε → Prop} {Q R : α → S → Prop} {s s' : S}

/-- Every way to end satisfies `Q`, every reason to halt satisfies `E`. -/
def wp (x : Program ε S α) (E : ε → Prop) (Q : α → S → Prop) (s : S) : Prop :=
  match x.run s with
  | .ok r => Q r.1 r.2
  | .error e => E e

theorem wp_iff :
    x.wp E Q s ↔ (∀ a s',x.run s = .ok (a,s') → Q a s') ∧ ∀ e,x.run s = .error e → E e := by
  unfold wp
  cases x.run s with
  | ok r =>
    constructor
    · intro h
      refine ⟨fun a s' heq => ?_,fun e heq => by cases heq⟩
      cases heq
      exact h
    · intro h
      exact h.1 r.1 r.2 rfl
  | error e =>
    constructor
    · intro h
      refine ⟨fun a s' heq => (by cases heq),fun e' heq => ?_⟩
      cases heq
      exact h
    · intro h
      exact h.2 e rfl

theorem wp_of_run_eq (hrun : x.run s = y.run s') (h : y.wp E Q s') : x.wp E Q s := by
  unfold wp at h ⊢
  rw [hrun]
  exact h

theorem wp_of_run (hx : x.run s = .ok (a,s')) (h : Q a s') : x.wp E Q s := by
  unfold wp
  rw [hx]
  exact h

theorem wp.run (h : x.wp E Q s) (hx : x.run s = .ok (a,s')) : Q a s' :=
  (wp_iff.mp h).1 a s' hx

theorem wp.mono (h : x.wp E Q s) (hE : ∀ e,E e → F e) (hQ : ∀ a s',Q a s' → R a s') :
    x.wp F R s := by
  rw [wp_iff] at h ⊢
  exact ⟨fun a s' hx => hQ a s' (h.1 a s' hx),fun e hx => hE e (h.2 e hx)⟩

/-- Only the postcondition is weakened. -/
theorem wp.imp (h : x.wp E Q s) (hQ : ∀ a s',Q a s' → R a s') : x.wp E R s :=
  h.mono (fun _ => id) hQ

theorem wp.and (hQ : x.wp E Q s) (hR : x.wp F R s) : x.wp E (fun a s' => Q a s' ∧ R a s') s := by
  rw [wp_iff] at hQ hR ⊢
  exact ⟨fun a s' hx => ⟨hQ.1 a s' hx,hR.1 a s' hx⟩,hQ.2⟩

@[simp] theorem wp_pure : (pure a : Program ε S α).wp E Q s ↔ Q a s := Iff.rfl

@[simp] theorem wp_halt : (halt e : Program ε S α).wp E Q s ↔ E e := Iff.rfl

@[simp] theorem wp_bind {Q : β → S → Prop} :
    (x >>= f).wp E Q s ↔ x.wp E (fun a => (f a).wp E Q) s := by
  have hrun : (x >>= f).run s = x.run s >>= fun r => (f r.1).run r.2 := rfl
  unfold wp
  rw [hrun]
  cases x.run s <;> rfl

/-- What a step ensures is what the rest begins with. -/
theorem wp.bind {R : β → S → Prop} (h : x.wp E Q s)
    (hf : ∀ a s',Q a s' → (f a).wp E R s') : (x >>= f).wp E R s :=
  wp_bind.mpr (h.imp hf)

@[simp] theorem wp_get {Q : S → S → Prop} : (get : Program ε S S).wp E Q s ↔ Q s s := Iff.rfl

@[simp] theorem wp_set {Q : PUnit → S → Prop} :
    (set s' : Program ε S PUnit).wp E Q s ↔ Q () s' := Iff.rfl

@[simp] theorem wp_modify {f : S → S} {Q : PUnit → S → Prop} :
    (modify f : Program ε S PUnit).wp E Q s ↔ Q () (f s) := Iff.rfl

theorem wp_need (hnone : o = none → E e) (hsome : ∀ a,o = some a → Q a s) :
    (need o e : Program ε S α).wp E Q s := by
  cases o with
  | none => exact hnone rfl
  | some a => exact hsome a rfl

theorem wp_ite [Decidable c] (hx : c → x.wp E Q s) (hy : ¬c → y.wp E Q s) :
    (if c then x else y).wp E Q s := by
  by_cases h : c
  · rw [if_pos h]
    exact hx h
  · rw [if_neg h]
    exact hy h

/-- A step that is only made under a condition, and what follows it in either case. -/
theorem wp_when [Decidable c] {x : Program ε S PUnit} {k : PUnit → Program ε S α} (P : S → Prop)
    (hx : c → x.wp E (fun _ => P) s) (hskip : ¬c → P s) (hk : ∀ s',P s' → (k ⟨⟩).wp E Q s') :
    (if c then x >>= k else k ⟨⟩).wp E Q s :=
  wp_ite (fun h => (hx h).bind fun _ s' => hk s') fun h => hk s (hskip h)

/-- A loop keeps what each of its rounds keeps. -/
theorem wp_forM {f : γ → Program ε S PUnit} {I : S → Prop}
    (hstep : ∀ x ∈ l,∀ s,I s → (f x).wp E (fun _ => I) s) (hs : I s) :
    (l.forM f).wp E (fun _ => I) s := by
  induction l generalizing s with
  | nil => exact hs
  | cons x l ih =>
    have hcons : (x::l).forM f = f x >>= fun _ => l.forM f := rfl
    rw [hcons,wp_bind]
    refine (hstep x List.mem_cons_self s hs).imp fun _ s' hs' => ?_
    exact ih (fun y hy => hstep y (List.mem_cons_of_mem _ hy)) hs'

theorem wp_const (x : Program ε S α) {P : Prop} (h : P) : x.wp (fun _ => True) (fun _ _ => P) s :=
  wp_iff.mpr ⟨fun _ _ _ => h,fun _ _ => trivial⟩

end Wp

section Ensures

/-- Whenever the program returns, its value satisfies `P`. -/
structure Ensures (x : Program ε S α) (P : α → Prop) : Prop where
  result : ∀ {s a s'},x.run s = .ok (a,s') → P a

variable {P : α → Prop}

theorem ensures_iff : x.Ensures P ↔ ∀ s,x.wp (fun _ => True) (fun a _ => P a) s := by
  constructor
  · intro h s
    exact wp_iff.mpr ⟨fun _ _ hx => h.result hx,fun _ _ => trivial⟩
  · intro h
    exact ⟨fun hx => (h _).run hx⟩

theorem Ensures.mono {Q : α → Prop} (h : x.Ensures P) (hPQ : ∀ a,P a → Q a) : x.Ensures Q :=
  ⟨fun hx => hPQ _ (h.result hx)⟩

theorem ensures_pure (h : P a) : (pure a : Program ε S α).Ensures P :=
  ensures_iff.mpr fun _ => h

theorem ensures_halt : (halt e : Program ε S α).Ensures P :=
  ensures_iff.mpr fun _ => trivial

theorem ensures_true (x : Program ε S α) : x.Ensures fun _ => True := ⟨fun _ => trivial⟩

theorem Ensures.bind {Q : β → Prop} (hx : x.Ensures P)
    (hf : ∀ a,P a → (f a).Ensures Q) : (x >>= f).Ensures Q := by
  rw [ensures_iff] at hx ⊢
  intro s
  exact (hx s).bind fun a s' ha => ensures_iff.mp (hf a ha) s'

/-- What comes after a step whose value does not matter. -/
theorem ensures_after {Q : β → Prop} (hf : ∀ a,(f a).Ensures Q) : (x >>= f).Ensures Q :=
  (ensures_true x).bind fun a _ => hf a

theorem ensures_ite [Decidable c] (hx : c → x.Ensures P) (hy : ¬c → y.Ensures P) :
    (if c then x else y).Ensures P := by
  by_cases h : c
  · rw [if_pos h]
    exact hx h
  · rw [if_neg h]
    exact hy h

end Ensures

section Leaves

variable {δ : Type} {f : S → δ}

/-- Wherever the program ends, what `f` reads off the state is as it was. -/
structure Leaves (x : Program ε S α) (f : S → δ) : Prop where
  reads : ∀ s,x.wp (fun _ => True) (fun _ s' => f s' = f s) s

theorem Leaves.run {s s' : S} (h : x.Leaves f) (hx : x.run s = .ok (a,s')) : f s' = f s :=
  (h.reads s).run hx

theorem leaves_pure : (pure a : Program ε S α).Leaves f := ⟨fun _ => rfl⟩

theorem leaves_halt : (halt e : Program ε S α).Leaves f := ⟨fun _ => trivial⟩

theorem leaves_need : (need o e : Program ε S α).Leaves f :=
  ⟨fun _ => wp_need (fun _ => trivial) fun _ _ => rfl⟩

theorem leaves_modify {g : S → S} (h : ∀ s,f (g s) = f s) :
    (modify g : Program ε S PUnit).Leaves f :=
  ⟨fun s => wp_modify.mpr (h s)⟩

theorem Leaves.bind {k : α → Program ε S β} (hx : x.Leaves f) (hk : ∀ a,(k a).Leaves f) :
    (x >>= k).Leaves f :=
  ⟨fun s => (hx.reads s).bind fun a s' h =>
    ((hk a).reads s').imp fun _ _ h' => h'.trans h⟩

/-- A program that begins with a look at the state. -/
theorem leaves_get {k : S → Program ε S α}
    (hk : ∀ s,(k s).wp (fun _ => True) (fun _ s' => f s' = f s) s) : (get >>= k).Leaves f :=
  ⟨fun s => wp_bind.mpr (wp_get.mpr (hk s))⟩

theorem leaves_ite [Decidable c] (hx : x.Leaves f) (hy : y.Leaves f) :
    (if c then x else y).Leaves f :=
  ⟨fun s => wp_ite (fun _ => hx.reads s) fun _ => hy.reads s⟩

theorem leaves_forM {h : γ → Program ε S PUnit} (hl : ∀ x,(h x).Leaves f) :
    (l.forM h).Leaves f := by
  induction l with
  | nil => exact leaves_pure
  | cons x l ih => exact (hl x).bind fun _ => ih

theorem leaves_foldlM {h : α → γ → Program ε S α} (hl : ∀ a x,(h a x).Leaves f) :
    (l.foldlM h a).Leaves f := by
  induction l generalizing a with
  | nil => exact leaves_pure
  | cons x l ih => exact (hl a x).bind fun _ => ih

end Leaves

end Program
end LogosCore
