/-
Searching an interval.

`Finds P lo hi r` says what a search of the numbers from `lo` below `hi` comes to: the least one
with the property, or none because there is none.  Searches of neighbouring intervals are joined,
so that a scan of a whole table is put together from the scans of its rows.
-/
import Mathlib.Data.Nat.Find

namespace Eke

/-- `r` is the least number in `[lo, hi)` with the property, or none if no number there has it. -/
def Finds (P : Nat → Prop) (lo hi : Nat) : Option Nat → Prop
  | some b => lo ≤ b ∧ b < hi ∧ P b ∧ ∀ c, lo ≤ c → c < b → ¬ P c
  | none => ∀ c, lo ≤ c → c < hi → ¬ P c

variable {P : Nat → Prop} {lo lo' mid hi hi' b : Nat} {r r' : Option Nat}

theorem Finds.empty (h : hi ≤ lo) : Finds P lo hi none := fun _ hc hc' => absurd hc (by omega)

theorem Finds.ite {c : Prop} [Decidable c] (h : c → Finds P lo hi r) (h' : ¬ c → Finds P lo hi r') :
    Finds P lo hi (if c then r else r') := by
  split
  · exact h ‹c›
  · exact h' ‹¬ c›

/-- The first number has the property. -/
theorem Finds.here (h : lo < hi) (hP : P lo) : Finds P lo hi (some lo) :=
  ⟨Nat.le_refl lo, h, hP, fun _ hc hc' => absurd hc (by omega)⟩

/-- Nothing is found in the first part. -/
theorem Finds.append (h : Finds P lo mid none) (hle : lo ≤ mid) (h' : Finds P mid hi r) :
    Finds P lo hi r := by
  have hout : ∀ c, lo ≤ c → (mid ≤ c → ¬ P c) → ¬ P c := fun c hc hmid =>
    if hcm : c < mid then h c hc hcm else hmid (by omega)
  cases r with
  | none => exact fun c hc hc' => hout c hc fun hmc => h' c hmc hc'
  | some b =>
      obtain ⟨hb, hb', hPb, hleast⟩ := h'
      exact ⟨by omega, hb', hPb, fun c hc hcb => hout c hc fun hmc => hleast c hmc hcb⟩

/-- The first number does not have the property. -/
theorem Finds.skip (hP : ¬ P lo) (h : Finds P (lo + 1) hi r) : Finds P lo hi r := by
  have hfirst : Finds P lo (lo + 1) none := by
    intro c hc hc'
    obtain rfl : c = lo := by omega
    exact hP
  exact hfirst.append (Nat.le_succ lo) h

/-- The number found in the first part is the one found. -/
theorem Finds.extend (h : Finds P lo mid (some b)) (hle : mid ≤ hi) : Finds P lo hi (some b) :=
  ⟨h.1, by have := h.2.1; omega, h.2.2⟩

/-- The bounds of a search may be moved where no number has the property. -/
theorem Finds.same (h : Finds P lo hi r)
    (heq : ∀ c, P c → (lo ≤ c ∧ c < hi ↔ lo' ≤ c ∧ c < hi')) : Finds P lo' hi' r := by
  cases r with
  | none =>
      intro c hc hc' hP
      have hin := (heq c hP).mpr ⟨hc, hc'⟩
      exact h c hin.1 hin.2 hP
  | some b =>
      obtain ⟨hb, hb', hP, hleast⟩ := h
      have hin := (heq b hP).mp ⟨hb, hb'⟩
      refine ⟨hin.1, hin.2, hP, fun c hc hcb hPc => ?_⟩
      have hcin := (heq c hPc).mpr ⟨hc, Nat.lt_trans hcb hin.2⟩
      exact hleast c hcin.1 hcb hPc

/-- There is only one result. -/
theorem Finds.unique (h : Finds P lo hi r) (h' : Finds P lo hi r') : r = r' := by
  cases r with
  | none =>
      cases r' with
      | none => rfl
      | some b => exact absurd h'.2.2.1 (h b h'.1 h'.2.1)
  | some a =>
      cases r' with
      | none => exact absurd h.2.2.1 (h' a h.1 h.2.1)
      | some b =>
          have hab : ¬ a < b := fun hlt => h'.2.2.2 a h.1 hlt h.2.2.1
          have hba : ¬ b < a := fun hlt => h.2.2.2 b h'.1 hlt h'.2.2.1
          exact congrArg some (by omega)

/-- A number with the property gives a first one. -/
theorem Finds.first {c : Nat} (hlo : lo ≤ c) (hhi : c < hi) (hP : P c) :
    ∃ b, b ≤ c ∧ Finds P lo hi (some b) := by
  classical
  have hex : ∃ b, lo ≤ b ∧ P b := ⟨c, hlo, hP⟩
  have hle : Nat.find hex ≤ c := Nat.find_min' hex ⟨hlo, hP⟩
  obtain ⟨hb, hPb⟩ := Nat.find_spec hex
  refine ⟨Nat.find hex, hle, hb, by omega, hPb, fun d hd hlt hPd => ?_⟩
  exact Nat.find_min hex hlt ⟨hd, hPd⟩

end Eke
