/-
Counted loops.

`loop f n` runs the body `f 0`, …, `f (n - 1)` in that order.  `loop_induct` is the
only rule a proof needs: an invariant indexed by the number of rounds done.
-/
namespace Eke

/-- The `for (i = 0; i < n; i++)` loop with body `f i`. -/
def loop {σ : Type} (f : Nat → σ → σ) : Nat → σ → σ
  | 0, s => s
  | n + 1, s => f n (loop f n s)

theorem loop_induct {σ : Type} {f : Nat → σ → σ} {P : Nat → σ → Prop} :
    ∀ {n : Nat} {s : σ}, P 0 s → (∀ i t, i < n → P i t → P (i + 1) (f i t)) → P n (loop f n s) := by
  intro n
  induction n with
  | zero => intro s h0 _; exact h0
  | succ n ih =>
      intro s h0 hstep
      exact hstep n _ (Nat.lt_succ_self n) (ih h0 fun i t hi => hstep i t (Nat.lt_succ_of_lt hi))

/-- The same for two loops of one length. -/
theorem loop_induct₂ {σ : Type} {f f' : Nat → σ → σ} {P : Nat → σ → σ → Prop} :
    ∀ {n : Nat} {s s' : σ}, P 0 s s' →
      (∀ i t t', i < n → P i t t' → P (i + 1) (f i t) (f' i t')) →
      P n (loop f n s) (loop f' n s') := by
  intro n
  induction n with
  | zero => intro s s' h0 _; exact h0
  | succ n ih =>
      intro s s' h0 hstep
      exact hstep n _ _ (Nat.lt_succ_self n) (ih h0 fun i t t' hi => hstep i t t' (Nat.lt_succ_of_lt hi))

end Eke
