/-
Programs with fuel.

More fuel never changes what a program comes to: of two programs that are `Under` one another
the first one runs out of fuel or comes to what the second one comes to.  A program comes to
an end if what it goes through is measured: `Halts` says that it ends and leaves no more than
it found, `Eats` that it leaves less, and a loop whose rounds go on only if they eat needs no
more fuel than there is to eat.  A loop whose rounds all go on never ends.
-/
import Eke.Lib.Prog
import Mathlib.Logic.Relation

namespace Eke

/-- The run comes to an end; if it ends with a value, that and the state have the property. -/
def Out.Halts {σ α : Type} (Q : α → σ → Prop) : Out σ α → Prop
  | .ok a s => Q a s
  | .exit _ _ => True
  | .wild _ => True
  | .more _ => False

/-- The run ends with a value or leaves early. -/
def Out.Finished {σ α : Type} : Out σ α → Prop
  | .ok _ _ => True
  | .exit _ _ => True
  | .wild _ => False
  | .more _ => False

theorem Out.finished_iff {σ α : Type} {o : Out σ α} :
    o.Finished ↔ (∀ s, o ≠ .more s) ∧ ∀ s, o ≠ .wild s := by
  cases o with
  | ok a s => exact ⟨fun _ => ⟨nofun, nofun⟩, fun _ => trivial⟩
  | exit code s => exact ⟨fun _ => ⟨nofun, nofun⟩, fun _ => trivial⟩
  | wild s => exact ⟨False.elim, fun h => h.2 s rfl⟩
  | more s => exact ⟨False.elim, fun h => h.1 s rfl⟩

theorem Out.Halts.mono {σ α : Type} {Q R : α → σ → Prop} {o : Out σ α} (h : o.Halts Q)
    (hQ : ∀ a s, Q a s → R a s) : o.Halts R := by
  cases o with
  | ok a s => exact hQ a s h
  | exit code s => trivial
  | wild s => trivial
  | more s => exact h

theorem Out.Halts.ne_more {σ α : Type} {Q : α → σ → Prop} {o : Out σ α} {t : σ} (h : o.Halts Q) :
    o ≠ .more t := by
  intro ho
  rw [ho] at h
  exact h

namespace Prog

variable {σ α β γ : Type} {x y : Prog σ α} {s t : σ}

theorem bind_eq {k : α → Prog σ β} : (x >>= k) s = Prog.bind x k s := rfl

theorem bind_assoc {f : α → Prog σ β} {g : β → Prog σ γ} :
    x >>= f >>= g = x >>= fun a => f a >>= g := by
  funext s
  rw [bind_eq, bind_eq, Prog.bind, bind_eq, Prog.bind, Prog.bind]
  cases x s with
  | ok a t => rfl
  | _ => rfl

/-- A part that runs out of fuel is the end of the program. -/
theorem bind_of_more {k : α → Prog σ β} (h : x s = .more t) : (x >>= k) s = .more t := by
  rw [bind_eq, Prog.bind, h]

/-! ### More fuel -/

/-- The first program runs out of fuel or comes to what the second one comes to. -/
def Under (x y : Prog σ α) : Prop := ∀ s, (∃ t, x s = .more t) ∨ x s = y s

theorem Under.refl (x : Prog σ α) : Under x x := fun _ => .inr rfl

theorem under_more (y : Prog σ α) : Under more y := fun s => .inl ⟨s, rfl⟩

theorem under_bind {k l : α → Prog σ β} (hx : Under x y) (hk : ∀ a, Under (k a) (l a)) :
    Under (x >>= k) (y >>= l) := by
  intro s
  obtain ⟨t, ht⟩ | heq := hx s
  · exact .inl ⟨t, bind_of_more ht⟩
  · rw [bind_eq, bind_eq, Prog.bind, Prog.bind, ← heq]
    cases x s with
    | ok a s' => exact hk a s'
    | _ => exact .inr rfl

/-- The first part is the same in both programs. -/
theorem under_then {k l : α → Prog σ β} (hk : ∀ a, Under (k a) (l a)) : Under (x >>= k) (x >>= l) :=
  under_bind (.refl x) hk

/-- Only the first part is not the same. -/
theorem under_first {k : α → Prog σ β} (hx : Under x y) : Under (x >>= k) (y >>= k) :=
  under_bind hx fun a => .refl (k a)

/-- Both programs take the same branch. -/
theorem under_ite {c : Prop} [Decidable c] {x' y' : Prog σ α} (hx : Under x x') (hy : Under y y') :
    Under (if c then x else y) (if c then x' else y') := by
  split
  · exact hx
  · exact hy

theorem under_cycle {f g : β → Prog σ (β ⊕ γ)} (h : ∀ b, Under (f b) (g b)) :
    ∀ {n m : Nat}, n ≤ m → ∀ b, Under (cycle n f b) (cycle m g b) := by
  intro n
  induction n with
  | zero =>
      intro m _ b
      exact under_more _
  | succ n ih =>
      intro m hm b
      obtain ⟨m, rfl⟩ : ∃ i, m = i + 1 := ⟨m - 1, by omega⟩
      apply under_bind (h b)
      intro c
      cases c with
      | inl b' => exact ih (Nat.le_of_succ_le_succ hm) b'
      | inr c => exact .refl _

/-- What a program ends with it ends with under more fuel as well. -/
theorem Under.eq (h : Under x y) (hs : ∀ t, x s ≠ .more t) : y s = x s := by
  obtain ⟨t, ht⟩ | heq := h s
  · exact absurd ht (hs t)
  · exact heq.symm

/-- Two ends of a program with different fuel are the same. -/
theorem same_end {f : Nat → Prog σ α} (h : ∀ {n m : Nat}, n ≤ m → Under (f n) (f m)) {n m : Nat}
    (hn : ∀ t, f n s ≠ .more t) (hm : ∀ t, f m s ≠ .more t) : f n s = f m s := by
  rcases Nat.le_total n m with hle | hle
  · exact ((h hle).eq hn).symm
  · exact (h hle).eq hm

/-! ### Programs that end -/

section

variable {left : σ → Nat} {k : Nat}

/-- Where there are at most `k` things left the program ends, and leaves no more. -/
def Halts (left : σ → Nat) (k : Nat) (x : Prog σ α) : Prop :=
  ∀ s, left s ≤ k → (x s).Halts fun _ t => left t ≤ left s

/-- The program ends and leaves less. -/
def Eats (left : σ → Nat) (k : Nat) (x : Prog σ α) : Prop :=
  ∀ s, left s ≤ k → (x s).Halts fun _ t => left t < left s

/-- A round of a loop ends, and leaves less if the loop goes on. -/
def Turns (left : σ → Nat) (k : Nat) (x : Prog σ (β ⊕ γ)) : Prop :=
  ∀ s, left s ≤ k → (x s).Halts fun c t => left t ≤ left s ∧ ∀ b, c = .inl b → left t < left s

/-- The end of a program by the end of its first part. -/
theorem bind_halts {R : α → σ → Prop} {Q : β → σ → Prop} {k : α → Prog σ β} (hx : (x s).Halts R)
    (hk : ∀ a t, x s = .ok a t → R a t → (k a t).Halts Q) : ((x >>= k) s).Halts Q := by
  rw [bind_eq, Prog.bind]
  cases hxs : x s with
  | ok a t =>
      rw [hxs] at hx
      exact hk a t hxs hx
  | exit code t => trivial
  | wild t => trivial
  | more t =>
      rw [hxs] at hx
      exact hx

theorem bind_halts_or {p : Prop} {R : α → σ → Prop} {Q : β → σ → Prop} {k : α → Prog σ β}
    (hx : (x s).Halts R) (hk : ∀ a t, x s = .ok a t → R a t → p ∨ (k a t).Halts Q) :
    p ∨ ((x >>= k) s).Halts Q := by
  by_cases hp : p
  · exact .inl hp
  · exact .inr (bind_halts hx fun a t hxs ht => (hk a t hxs ht).resolve_left hp)

theorem halts_pure (a : α) : Halts left k (pure a : Prog σ α) := fun s _ => Nat.le_refl (left s)

theorem halts_gets (f : σ → α) : Halts left k (gets f) := fun s _ => Nat.le_refl (left s)

theorem halts_update {f : σ → σ} (h : ∀ s, left (f s) ≤ left s) : Halts left k (update f) :=
  fun s _ => h s

theorem eats_exit (code : Int) : Eats left k (exit code : Prog σ α) := fun _ _ => trivial

theorem eats_undefined : Eats left k (undefined : Prog σ α) := fun _ _ => trivial

theorem eats_ite {c : Prop} [Decidable c] {y : Prog σ α} (hx : Eats left k x) (hy : Eats left k y) :
    Eats left k (if c then x else y) := by
  split
  · exact hx
  · exact hy

theorem Eats.halts (h : Eats left k x) : Halts left k x :=
  fun s hs => (h s hs).mono fun _ _ => Nat.le_of_lt

theorem Eats.at_most {j : Nat} (h : Eats left k x) (hj : j ≤ k) : Eats left j x :=
  fun s hs => h s (Nat.le_trans hs hj)

theorem Halts.bind {f : α → Prog σ β} (hx : Halts left k x) (hf : ∀ a, Halts left k (f a)) :
    Halts left k (x >>= f) := by
  intro s hs
  apply bind_halts (hx s hs)
  intro a t _ hst
  exact (hf a t (Nat.le_trans hst hs)).mono fun _ _ hu => Nat.le_trans hu hst

/-- Behind a part that eats less is left. -/
theorem Eats.bind {f : α → Prog σ β} (hx : Eats left k x) (hf : ∀ j < k, ∀ a, Halts left j (f a)) :
    Eats left k (x >>= f) := by
  intro s hs
  apply bind_halts (hx s hs)
  intro a t _ hst
  exact (hf (left t) (Nat.lt_of_lt_of_le hst hs) a t (Nat.le_refl _)).mono
    fun _ _ hu => Nat.lt_of_le_of_lt hu hst

theorem Halts.bind_eats {f : α → Prog σ β} (hx : Halts left k x) (hf : ∀ a, Eats left k (f a)) :
    Eats left k (x >>= f) := by
  intro s hs
  apply bind_halts (hx s hs)
  intro a t _ hst
  exact (hf a t (Nat.le_trans hst hs)).mono fun _ _ hu => Nat.lt_of_lt_of_le hu hst

theorem Eats.turns {x : Prog σ (β ⊕ γ)} (h : Eats left k x) : Turns left k x :=
  fun s hs => (h s hs).mono fun _ _ hst => ⟨Nat.le_of_lt hst, fun _ _ => hst⟩

/-- A round that ends the loop. -/
theorem turns_end (c : γ) : Turns left k (pure (.inr c) : Prog σ (β ⊕ γ)) :=
  fun s _ => ⟨Nat.le_refl (left s), nofun⟩

theorem Halts.bind_turns {f : α → Prog σ (β ⊕ γ)} (hx : Halts left k x)
    (hf : ∀ a, Turns left k (f a)) : Turns left k (x >>= f) := by
  intro s hs
  apply bind_halts (hx s hs)
  intro a t _ hst
  exact (hf a t (Nat.le_trans hst hs)).mono fun _ _ hu =>
    ⟨Nat.le_trans hu.1 hst, fun b hb => Nat.lt_of_lt_of_le (hu.2 b hb) hst⟩

/-! ### Loops -/

/-- The rounds of a loop that went on. -/
def Rounds (body : β → Prog σ (β ⊕ γ)) : β × σ → β × σ → Prop :=
  Relation.ReflTransGen fun p q => body p.1 p.2 = .ok (.inl q.1) q.2

variable {body : β → Prog σ (β ⊕ γ)}

/-- A loop ends unless it comes to a round that is bad: a round that is not goes on only if
it leaves less. -/
theorem cycle_halts (bad : β → σ → Prop)
    (hbody : ∀ b s, left s ≤ k → ¬ bad b s →
      (body b s).Halts fun c t => left t ≤ left s ∧ ∀ b', c = .inl b' → left t < left s) :
    ∀ n b s, left s ≤ k → left s < n →
      (∃ b' t, Rounds body (b, s) (b', t) ∧ left t ≤ k ∧ bad b' t) ∨
        (cycle n body b s).Halts fun _ t => left t ≤ left s := by
  intro n
  induction n with
  | zero =>
      intro b s _ hn
      exact absurd hn (Nat.not_lt_zero _)
  | succ n ih =>
      intro b s hs hn
      by_cases hbad : bad b s
      · exact .inl ⟨b, s, .refl, hs, hbad⟩
      have hround := hbody b s hs hbad
      cases hb : body b s with
      | ok c t =>
          rw [hb] at hround
          obtain ⟨hle, hless⟩ := hround
          cases c with
          | inl b' =>
              have hlt := hless b' rfl
              rw [cycle_next hb]
              obtain ⟨b'', u, hrounds, hu, hbad⟩ | hend := ih b' t (by omega) (by omega)
              · exact .inl ⟨b'', u, .head hb hrounds, hu, hbad⟩
              · exact .inr (hend.mono fun _ _ hu => Nat.le_trans hu hle)
          | inr c =>
              refine .inr ?_
              rw [cycle_stop hb]
              exact hle
      | exit code t =>
          refine .inr ?_
          rw [cycle, bind_eq, Prog.bind, hb]
          trivial
      | wild t =>
          refine .inr ?_
          rw [cycle, bind_of_wild hb]
          trivial
      | more t =>
          rw [hb] at hround
          exact hround.elim

/-- A loop all of whose rounds turn. -/
theorem Turns.cycle (hbody : ∀ b, Turns left k (body b)) {n : Nat} (hn : k < n) (b : β) :
    Halts left k (cycle n body b) := by
  intro s hs
  have h := cycle_halts (fun _ _ => False) (fun b s hs _ => hbody b s hs) n b s hs (by omega)
  obtain ⟨b', t, -, -, hbad⟩ | hend := h
  · exact hbad.elim
  · exact hend

end

/-- A loop that goes on for ever. -/
theorem cycle_endless {body : β → Prog σ (β ⊕ γ)} {P : β → σ → Prop}
    (h : ∀ b s, P b s → ∃ b' t, body b s = .ok (.inl b') t ∧ P b' t) :
    ∀ n b s, P b s → ∃ t, cycle n body b s = .more t := by
  intro n
  induction n with
  | zero =>
      intro b s _
      exact ⟨s, rfl⟩
  | succ n ih =>
      intro b s hs
      obtain ⟨b', t, hb, ht⟩ := h b s hs
      rw [cycle_next hb]
      exact ih b' t ht

/-- A loop that comes to a place from which it never ends. -/
theorem Rounds.endless {body : β → Prog σ (β ⊕ γ)} {p q : β × σ} (h : Rounds body p q)
    (hq : ∀ n, ∃ t, cycle n body q.1 q.2 = .more t) : ∀ n, ∃ t, cycle n body p.1 p.2 = .more t := by
  induction h using Relation.ReflTransGen.head_induction_on with
  | refl => exact hq
  | head hround _ ih =>
      intro n
      cases n with
      | zero => exact ⟨_, rfl⟩
      | succ n =>
          rw [cycle_next hround]
          exact ih n

/-- With more fuel a loop goes through the same rounds. -/
theorem Rounds.mono {f g : β → Prog σ (β ⊕ γ)} (h : ∀ b, Under (f b) (g b)) {p q : β × σ}
    (hp : Rounds f p q) : Rounds g p q := by
  refine Relation.ReflTransGen.mono (fun p q hround => ?_) p q hp
  show g p.1 p.2 = _
  rw [(h p.1).eq (fun t => by rw [hround]; nofun), hround]

end Prog

end Eke
