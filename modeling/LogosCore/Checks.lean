import Mathlib

/-! # Checks that may break off

A check of type `Check ε α` ends in one of three ways: it accepts with a value,
it rejects with a reason, or it breaks off, which stands for a program that halts
or whose behaviour is undefined. The rules below say when a composed check accepts;
a proof about a long validation peels it apart with them. -/
namespace LogosCore

abbrev Check (ε α : Type) := ExceptT ε Option α

namespace Check

variable {ε α β : Type}

/-- The check accepts with the given value. -/
def Accepts (x : Check ε α) (a : α) : Prop := x.run = some (.ok a)

instance [DecidableEq ε] [DecidableEq α] (x : Check ε α) (a : α) : Decidable (x.Accepts a) :=
  inferInstanceAs (Decidable (x.run = some (.ok a)))

/-- Reject with `e` unless the condition holds. -/
def require (c : Prop) [Decidable c] (e : ε) : Check ε Unit := if c then pure () else throw e

/-- The value of a lookup; reject with `e` where there is none. -/
def found (o : Option α) (e : ε) : Check ε α :=
  match o with
  | some a => pure a
  | none => throw e

/-- The value of a computation that may break off. -/
def attempt (o : Option α) : Check ε α := ExceptT.lift o

variable {c : Prop} {a : α} {e : ε} {x : Check ε α} {b : β} {o : Option α}

@[simp] theorem accepts_pure {b : α} : (pure a : Check ε α).Accepts b ↔ a = b := by
  constructor
  · intro h
    cases h
    rfl
  · intro h
    rw [h]
    rfl

@[simp] theorem not_accepts_throw : ¬(throw e : Check ε α).Accepts a := by
  intro h
  cases h

@[simp] theorem not_accepts_break : ¬(attempt none : Check ε α).Accepts a := by
  intro h
  cases h

variable {f : α → Check ε β}

theorem accepts_bind : (x >>= f).Accepts b ↔ ∃ a,x.Accepts a ∧ (f a).Accepts b := by
  have hrun : (x >>= f).run = x.run >>= ExceptT.bindCont f := rfl
  simp only [Accepts,hrun]
  cases hx : x.run with
  | none => simp
  | some r =>
    cases r with
    | error e => simp [ExceptT.bindCont]
    | ok a => simp [ExceptT.bindCont,ExceptT.run]

/-- A check without a value comes first. -/
theorem accepts_unit_bind {x : Check ε Unit} {f : Unit → Check ε α} :
    (x >>= f).Accepts a ↔ x.Accepts () ∧ (f ()).Accepts a := by
  rw [accepts_bind]
  constructor
  · rintro ⟨_,hx,ha⟩
    exact ⟨hx,ha⟩
  · intro h
    exact ⟨(),h⟩

@[simp] theorem accepts_require [Decidable c] {u : Unit} : (require c e).Accepts u ↔ c := by
  unfold require
  split <;> simp_all

@[simp] theorem accepts_found : (found o e).Accepts a ↔ o = some a := by
  cases o <;> simp [found]

@[simp] theorem accepts_attempt : (attempt o : Check ε α).Accepts a ↔ o = some a := by
  cases o with
  | none => simp
  | some b =>
    have hlift : (attempt (some b) : Check ε α) = pure b := rfl
    rw [hlift,accepts_pure,Option.some_inj]

theorem accepts_require_bind [Decidable c] {f : Unit → Check ε α} :
    (require c e >>= f).Accepts a ↔ c ∧ (f ()).Accepts a := by
  rw [accepts_bind]
  constructor
  · rintro ⟨_,hc,ha⟩
    exact ⟨accepts_require.mp hc,ha⟩
  · rintro ⟨hc,ha⟩
    exact ⟨(),accepts_require.mpr hc,ha⟩

theorem accepts_found_bind : (found o e >>= f).Accepts b ↔ ∃ a,o = some a ∧ (f a).Accepts b := by
  simp only [accepts_bind,accepts_found]

theorem accepts_attempt_bind : (attempt o >>= f).Accepts b ↔ ∃ a,o = some a ∧ (f a).Accepts b := by
  simp only [accepts_bind,accepts_attempt]

theorem accepts_forM {γ : Type} {f : γ → Check ε Unit} {l : List γ} :
    (l.forM f).Accepts () ↔ ∀ x ∈ l,(f x).Accepts () := by
  induction l with
  | nil => simp
  | cons x l ih =>
    have hcons : (x::l).forM f = f x >>= fun _ => l.forM f := rfl
    simp only [hcons,accepts_bind,ih,List.forall_mem_cons]
    constructor
    · rintro ⟨_,hx,hl⟩
      exact ⟨hx,hl⟩
    · intro h
      exact ⟨(),h⟩

@[simp] theorem attempt_some_bind : (attempt (some a) >>= f) = f a :=
  rfl

@[simp] theorem run_attempt_none_bind : (attempt (none : Option α) >>= f).run = none :=
  rfl

@[simp] theorem found_some_bind : (found (some a) e >>= f) = f a :=
  rfl

@[simp] theorem run_found_none_bind : (found (none : Option α) e >>= f).run = some (.error e) :=
  rfl

@[simp] theorem require_true_bind {f : Unit → Check ε β} : (require True e >>= f) = f () :=
  rfl

@[simp] theorem run_require_false_bind {f : Unit → Check ε β} :
    (require False e >>= f).run = some (.error e) :=
  rfl

theorem run_require [Decidable c] : (require c e).run = some (if c then .ok () else .error e) := by
  unfold require
  split <;> rfl

theorem run_bind_none (h : x.run = none) : (x >>= f).run = none := by
  have hrun : (x >>= f).run = x.run >>= ExceptT.bindCont f := rfl
  rw [hrun,h]
  rfl

theorem run_bind_error (h : x.run = some (.error e)) : (x >>= f).run = some (.error e) := by
  have hrun : (x >>= f).run = x.run >>= ExceptT.bindCont f := rfl
  rw [hrun,h]
  rfl

theorem run_bind_ok (h : x.run = some (.ok a)) : (x >>= f).run = (f a).run := by
  have hrun : (x >>= f).run = x.run >>= ExceptT.bindCont f := rfl
  rw [hrun,h]
  rfl

/-- The check accepts or rejects; it does not break off. -/
def Ends (x : Check ε α) : Prop := x.run.isSome = true

@[simp] theorem ends_pure : (pure a : Check ε α).Ends := rfl

@[simp] theorem ends_throw : (throw e : Check ε α).Ends := rfl

@[simp] theorem ends_require [Decidable c] : (require c e).Ends := by
  unfold require
  split <;> simp

theorem ends_attempt : (attempt o : Check ε α).Ends ↔ o.isSome = true := by
  cases o <;> simp [attempt,Ends,ExceptT.lift,ExceptT.run,ExceptT.mk]

theorem ends_bind (hx : x.Ends) (hf : ∀ a,x.Accepts a → (f a).Ends) : (x >>= f).Ends := by
  have hrun : (x >>= f).run = x.run >>= ExceptT.bindCont f := rfl
  simp only [Ends,hrun] at hx ⊢
  obtain ⟨r,hr⟩ := Option.isSome_iff_exists.mp hx
  rw [hr]
  cases r with
  | error e => rfl
  | ok a => exact hf a hr

end Check

end LogosCore
