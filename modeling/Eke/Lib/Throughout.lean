/-
Runs of a machine that takes one event after the other.

`Throughout next P s es` says that `P` holds at every step of the run over `es` from `s`, of the
state before the step and its event.  Two such statements are compared step by step, under an
invariant that a step keeps where the first of them holds.
-/
namespace Eke

universe u v

variable {σ : Type u} {ε : Type v} {next : σ → ε → σ} {P Q : σ → ε → Prop} {I : σ → Prop}

def Throughout (next : σ → ε → σ) (P : σ → ε → Prop) : σ → List ε → Prop
  | _, [] => True
  | s, e :: es => P s e ∧ Throughout next P (next s e) es

theorem Throughout.imp (hPQ : ∀ s e, I s → P s e → Q s e) (hkeep : ∀ s e, I s → P s e → I (next s e))
    {es : List ε} : ∀ {s : σ}, I s → Throughout next P s es → Throughout next Q s es := by
  induction es with
  | nil => intro s _ _; trivial
  | cons e es ih =>
      intro s hs ⟨he, hes⟩
      exact ⟨hPQ s e hs he, ih (hkeep s e hs he) hes⟩

theorem Throughout.congr (hPQ : ∀ s e, I s → (P s e ↔ Q s e)) (hkeep : ∀ s e, I s → P s e → I (next s e))
    {es : List ε} {s : σ} (hs : I s) : Throughout next P s es ↔ Throughout next Q s es :=
  ⟨Throughout.imp (fun s e hs => (hPQ s e hs).mp) hkeep hs,
    Throughout.imp (fun s e hs => (hPQ s e hs).mpr) (fun s e hs he => hkeep s e hs ((hPQ s e hs).mpr he)) hs⟩

theorem Throughout.append {es fs : List ε} : ∀ {s : σ}, Throughout next P s (es ++ fs) ↔
    Throughout next P s es ∧ Throughout next P (es.foldl next s) fs := by
  induction es with
  | nil =>
      intro s
      exact ⟨fun h => ⟨trivial, h⟩, fun h => h.2⟩
  | cons e es ih =>
      intro s
      constructor
      · intro h
        have hrest := ih.mp h.2
        exact ⟨⟨h.1, hrest.1⟩, hrest.2⟩
      · intro h
        exact ⟨h.1.1, ih.mpr ⟨h.1.2, h.2⟩⟩

end Eke
