/-
Machines that run for a while or reach a goal.

`Leads step n Q c` says that the machine, started in `c`, reaches a state in `Q` within `n`
steps or makes `n` steps without getting stuck.  The count is what recursive code is proved
with: each step of the machine lowers it by one.  `Leads.gets` says of what is reached that it is
reached from the start.
-/
namespace Eke

variable {σ : Type} {step : σ → Option σ}

def Leads (step : σ → Option σ) : Nat → (σ → Prop) → σ → Prop
  | 0, _, _ => True
  | n + 1, Q, c => Q c ∨ ∃ d, step c = some d ∧ Leads step n Q d

/-- `n` steps of the machine. -/
def after (step : σ → Option σ) : Nat → σ → Option σ
  | 0, c => some c
  | n + 1, c => (step c).bind (after step n)

/-- The states the machine is in before each of `n` steps; fewer if it stops. -/
def trail (step : σ → Option σ) : Nat → σ → List σ
  | 0, _ => []
  | n + 1, c => c :: ((step c).map (trail step n)).getD []

/-- Some number of steps leads from one state to the other. -/
def Gets (step : σ → Option σ) (c d : σ) : Prop := ∃ n, after step n c = some d

variable {n : Nat} {Q R : σ → Prop} {c d e : σ}

theorem Leads.here (h : Q c) : Leads step n Q c := by
  cases n with
  | zero => trivial
  | succ n => exact Or.inl h

theorem Leads.lower : ∀ {n : Nat} {c : σ}, Leads step (n + 1) Q c → Leads step n Q c := by
  intro n
  induction n with
  | zero => intro c _; trivial
  | succ n ih =>
      intro c h
      exact h.imp_right fun ⟨d, hd, h⟩ => ⟨d, hd, ih h⟩

theorem Leads.next (hd : step c = some d) (h : Leads step n Q d) : Leads step (n + 1) Q c :=
  Or.inr ⟨d, hd, h⟩

/-- A step without counting it. -/
theorem Leads.ahead (hd : step c = some d) (h : Leads step n Q d) : Leads step n Q c :=
  (h.next hd).lower

theorem Leads.bind : ∀ {n : Nat} {c : σ}, Leads step n Q c → (∀ d, Q d → Leads step n R d) →
    Leads step n R c := by
  intro n
  induction n with
  | zero => intro c _ _; trivial
  | succ n ih =>
      intro c h hk
      rcases h with h | ⟨d, hd, h⟩
      · exact hk c h
      · exact Or.inr ⟨d, hd, ih h fun e he => (hk e he).lower⟩

theorem Leads.mono (h : Leads step n Q c) (hQR : ∀ d, Q d → R d) : Leads step n R c :=
  h.bind fun d hd => .here (hQR d hd)

/-- A machine that stops has been where it leads to. -/
theorem Leads.on_trail : ∀ {n : Nat} {c : σ}, Leads step n Q c → (trail step n c).length < n →
    ∃ d ∈ trail step n c, Q d := by
  intro n
  induction n with
  | zero => intro c _ h; exact absurd h (Nat.not_lt_zero _)
  | succ n ih =>
      intro c h hlen
      rcases h with h | ⟨d, hd, h⟩
      · exact ⟨c, List.mem_cons_self .., h⟩
      · rw [trail, hd] at hlen ⊢
        obtain ⟨e, he, hq⟩ := ih h (Nat.lt_of_succ_lt_succ hlen)
        exact ⟨e, List.mem_cons_of_mem _ he, hq⟩

theorem Gets.refl : Gets step c c := ⟨0, rfl⟩

theorem Gets.next (hd : step c = some d) (h : Gets step d e) : Gets step c e := by
  obtain ⟨n, h⟩ := h
  exact ⟨n + 1, by rw [after, hd]; exact h⟩

theorem Gets.trans (h : Gets step c d) (h' : Gets step d e) : Gets step c e := by
  obtain ⟨n, h⟩ := h
  induction n generalizing c with
  | zero => cases h; exact h'
  | succ n ih =>
      obtain ⟨a, ha, h⟩ := Option.bind_eq_some_iff.mp h
      exact (ih h).next ha

/-- What is reached is reached from the start. -/
theorem Leads.gets : ∀ {n : Nat} {c : σ}, Leads step n Q c →
    Leads step n (fun d => Gets step c d ∧ Q d) c := by
  intro n
  induction n with
  | zero => intro c _; trivial
  | succ n ih =>
      intro c h
      rcases h with h | ⟨d, hd, h⟩
      · exact Or.inl ⟨.refl, h⟩
      · exact Or.inr ⟨d, hd, (ih h).mono fun e he => ⟨he.1.next hd, he.2⟩⟩

end Eke
