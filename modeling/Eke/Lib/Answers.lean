/-
What a program means and what a machine does.

The meaning of a program with fuel is an `Answer`: a value, nothing at all where the language
gives it no meaning, or a wish for more fuel.  `Refines` compares the answers of two meanings.
`Fulfils` says that a machine carries an answer out: where there is a value it gets to a state
that goes with it, and where the fuel ran out it makes as many steps as there was fuel, unless
it gets to one of the states in which it may give up.
-/
import Eke.Lib.Leads

namespace Eke

inductive Answer (α : Type)
  | is (a : α)
  | wild
  | more
  deriving DecidableEq

namespace Answer

variable {α β γ δ : Type}

protected def bind : Answer α → (α → Answer β) → Answer β
  | is a, k => k a
  | wild, _ => wild
  | more, _ => more

instance : Monad Answer where
  pure := is
  bind := Answer.bind

/-- What is not there has no meaning. -/
def ofOption : Option α → Answer α
  | some a => is a
  | none => wild

@[simp] theorem is_bind (a : α) (k : α → Answer β) : (is a >>= k) = k a := rfl

@[simp] theorem wild_bind (k : α → Answer β) : ((wild : Answer α) >>= k) = wild := rfl

@[simp] theorem more_bind (k : α → Answer β) : ((more : Answer α) >>= k) = more := rfl

@[simp] theorem pure_eq (a : α) : (pure a : Answer α) = is a := rfl

@[simp] theorem ofOption_some (a : α) : ofOption (some a) = is a := rfl

/-- The second meaning answers as the first one does, wherever the first one has a meaning. -/
def Refines (R : α → β → Prop) : Answer α → Answer β → Prop
  | is a, is b => R a b
  | more, more => True
  | wild, _ => True
  | _, _ => False

theorem Refines.bind {R : α → β → Prop} {S : γ → δ → Prop} {x : Answer α} {y : Answer β}
    {f : α → Answer γ} {g : β → Answer δ} (h : Refines R x y)
    (hk : ∀ a b, R a b → Refines S (f a) (g b)) : Refines S (x >>= f) (y >>= g) := by
  cases x with
  | is a =>
      cases y with
      | is b => exact hk a b h
      | wild => exact h.elim
      | more => exact h.elim
  | wild => trivial
  | more =>
      cases y with
      | is b => exact h.elim
      | wild => exact h.elim
      | more => trivial

theorem Refines.ofOption {R : α → β → Prop} {a : Option α} {b : Option β}
    (h : ∀ x, a = some x → ∃ y, b = some y ∧ R x y) : Refines R (ofOption a) (ofOption b) := by
  cases a with
  | none => trivial
  | some x =>
      obtain ⟨y, rfl, hy⟩ := h x rfl
      exact hy

theorem Refines.eq_is {R : α → β → Prop} {a : α} {y : Answer β} (h : Refines R (is a) y) :
    ∃ b, y = is b ∧ R a b := by
  cases y with
  | is b => exact ⟨b, rfl, h⟩
  | wild => exact h.elim
  | more => exact h.elim

theorem Refines.eq_more {R : α → β → Prop} {y : Answer β} (h : Refines R more y) : y = more := by
  cases y with
  | is b => exact h.elim
  | wild => exact h.elim
  | more => rfl

end Answer

/-! ### Machines that get somewhere -/

variable {σ : Type} {step : σ → Option σ} {n : Nat} {P Q R L : σ → Prop} {c d e : σ}

/-- The machine gets to a state in `Q`. -/
def Attains (step : σ → Option σ) (Q : σ → Prop) (c : σ) : Prop := ∃ d, Gets step c d ∧ Q d

theorem Attains.here (h : Q c) : Attains step Q c := ⟨c, .refl, h⟩

theorem Attains.ahead (hd : step c = some d) (h : Attains step Q d) : Attains step Q c := by
  obtain ⟨e, he, hq⟩ := h
  exact ⟨e, he.next hd, hq⟩

theorem Attains.bind (h : Attains step Q c) (hk : ∀ d, Q d → Attains step R d) : Attains step R c := by
  obtain ⟨d, hd, hq⟩ := h
  obtain ⟨e, he, hr⟩ := hk d hq
  exact ⟨e, hd.trans he, hr⟩

theorem Attains.mono (h : Attains step Q c) (hQR : ∀ d, Q d → R d) : Attains step R c :=
  h.bind fun _ hd => .here (hQR _ hd)

/-- Whatever happens behind a state the machine gets to. -/
theorem Attains.leads (h : Attains step Q c) (hk : ∀ d, Q d → Leads step n R d) : Leads step n R c := by
  obtain ⟨d, ⟨k, hd⟩, hq⟩ := h
  induction k generalizing c with
  | zero =>
      obtain rfl : c = d := Option.some.inj hd
      exact hk c hq
  | succ k ih =>
      obtain ⟨a, ha, hd⟩ := Option.bind_eq_some_iff.mp hd
      exact .ahead ha (ih hd)

/-- The machine that stops outside of `P`. -/
def guarded (step : σ → Option σ) (P : σ → Prop) [DecidablePred P] (c : σ) : Option σ :=
  if P c then step c else none

theorem guarded_eq [DecidablePred P] (h : P c) : guarded step P c = step c := if_pos h

/-- What it does, the machine does too. -/
theorem Gets.unguard [DecidablePred P] (h : Gets (guarded step P) c d) : Gets step c d := by
  obtain ⟨k, h⟩ := h
  induction k generalizing c with
  | zero => exact ⟨0, h⟩
  | succ k ih =>
      obtain ⟨a, ha, h⟩ := Option.bind_eq_some_iff.mp h
      unfold guarded at ha
      split at ha
      · exact (ih h).next ha
      · cases ha

theorem Attains.unguard [DecidablePred P] (h : Attains (guarded step P) Q c) : Attains step Q c := by
  obtain ⟨d, hd, hq⟩ := h
  exact ⟨d, hd.unguard, hq⟩

/-! ### Machines that carry out an answer -/

variable {α β : Type} {x : Answer α} {G G' : α → σ → Prop} {H : β → σ → Prop}

/-- The machine gets to a state that goes with the value, or is busy for `n` steps if the fuel
ran out; it may give up in the states of `L`. -/
def Fulfils (step : σ → Option σ) (n : Nat) (L : σ → Prop) (G : α → σ → Prop) : Answer α → σ → Prop
  | .is a, c => Attains step (fun d => L d ∨ G a d) c
  | .wild, _ => True
  | .more, c => Leads step n L c

theorem Fulfils.here {a : α} (h : G a c) : Fulfils step n L G (.is a) c := Attains.here (Or.inr h)

theorem Fulfils.give_up (h : L c) : Fulfils step n L G x c := by
  cases x with
  | is a => exact Attains.here (Or.inl h)
  | wild => trivial
  | more => exact Leads.here h

/-- A step without counting it. -/
theorem Fulfils.ahead (hd : step c = some d) (h : Fulfils step n L G x d) : Fulfils step n L G x c := by
  cases x with
  | is a => exact Attains.ahead hd h
  | wild => trivial
  | more => exact Leads.ahead hd h

theorem Fulfils.next (hd : step c = some d) (h : Fulfils step n L G x d) :
    Fulfils step (n + 1) L G x c := by
  cases x with
  | is a => exact Attains.ahead hd h
  | wild => trivial
  | more => exact Leads.next hd h

theorem Fulfils.after (h : Attains step (fun d => L d ∨ Q d) c)
    (hk : ∀ d, Q d → Fulfils step n L G x d) : Fulfils step n L G x c := by
  obtain ⟨d, ⟨k, hd⟩, hq⟩ := h
  induction k generalizing c with
  | zero =>
      obtain rfl : c = d := Option.some.inj hd
      exact hq.elim .give_up (hk c)
  | succ k ih =>
      obtain ⟨a, ha, hd⟩ := Option.bind_eq_some_iff.mp hd
      exact .ahead ha (ih hd)

/-- What comes behind a part of the program. -/
theorem Fulfils.bind {f : α → Answer β} (h : Fulfils step n L G x c)
    (hk : ∀ a d, x = .is a → G a d → Fulfils step n L H (f a) d) :
    Fulfils step n L H (x >>= f) c := by
  cases x with
  | is a => exact Fulfils.after h fun d hd => hk a d rfl hd
  | wild => trivial
  | more => exact h

/-- What the machine does behind a part of the program, before it is where it should be. -/
theorem Fulfils.further (h : Fulfils step n L G x c)
    (hk : ∀ a d, x = .is a → G a d → Attains step (fun e => L e ∨ G' a e) d) :
    Fulfils step n L G' x c := by
  cases x with
  | is a => exact Fulfils.after h fun d hd => hk a d rfl hd
  | wild => trivial
  | more => exact h

theorem Fulfils.mono (h : Fulfils step n L G x c) (hG : ∀ a d, x = .is a → G a d → G' a d) :
    Fulfils step n L G' x c := by
  cases x with
  | is a => exact Attains.mono h fun d hd => hd.imp_right (hG a d rfl)
  | wild => trivial
  | more => exact h

end Eke
