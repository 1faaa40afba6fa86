/-
Machines that answer calls.

`Talks acts s t s'` says that `t`, a list of calls with their answers, is what a machine that starts in
`s` and ends in `s'` may have been asked and may have said.  What its users see of a machine is no more
than that, so a machine is as good as another if all its talks are talks of the other one.  A relation
that one call keeps is enough for it, where the other machine gives the same answer.
-/
namespace Eke

universe u v w x

variable {σ : Type u} {τ : Type v} {κ : Type w} {α : Type x}

inductive Talks (acts : σ → κ → α → σ → Prop) : σ → List (κ × α) → σ → Prop
  | silent (s : σ) : Talks acts s [] s
  | call {s s' s'' : σ} {c : κ} {a : α} {t : List (κ × α)} (first : acts s c a s')
      (rest : Talks acts s' t s'') : Talks acts s ((c, a) :: t) s''

variable {acts : σ → κ → α → σ → Prop} {spec : τ → κ → α → τ → Prop} {R : σ → τ → Prop} {P : κ → Prop}
  {f : σ → τ}

/-- **Simulation.** -/
theorem Talks.simulated (hstep : ∀ s m c a s', R s m → acts s c a s' → ∃ m', spec m c a m' ∧ R s' m')
    {s s' : σ} {t : List (κ × α)} (h : Talks acts s t s') :
    ∀ {m : τ}, R s m → ∃ m', Talks spec m t m' ∧ R s' m' := by
  induction h with
  | silent s => exact fun hr => ⟨_, .silent _, hr⟩
  | call first _ ih =>
      intro m hr
      obtain ⟨m', hspec, hr'⟩ := hstep _ _ _ _ _ hr first
      obtain ⟨m'', hrest, hend⟩ := ih hr'
      exact ⟨m'', .call hspec hrest, hend⟩

/-- What no call of a talk changes. -/
theorem Talks.keeps (hstep : ∀ s c a s', P c → acts s c a s' → f s' = f s) {s s' : σ} {t : List (κ × α)}
    (h : Talks acts s t s') : (∀ e ∈ t, P e.1) → f s' = f s := by
  induction h with
  | silent s => exact fun _ => rfl
  | call first _ ih =>
      intro ht
      have hrest := ih fun e he => ht e (List.mem_cons_of_mem _ he)
      exact hrest.trans (hstep _ _ _ _ (ht _ (List.mem_cons_self ..)) first)

end Eke
