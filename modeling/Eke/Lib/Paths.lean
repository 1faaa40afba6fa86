/-
Paths through code and what they add up to.

Positions are numbers, and an edge leads from one to another with a weight.  A path starts
inside an interval and ends at the first position outside.  `Passes` says that all paths through an
interval leave at its end, and which weights they have; `Branches` is about code that may also jump
to one position elsewhere.  Both are composed along sequences, conditionals and loops, so that the
weights of structured code are read off its structure.
-/
import Mathlib.Algebra.Group.Basic

namespace Eke

namespace Paths

variable {G : Type} [AddMonoid G] {E : Nat → Nat → G → Prop}

/-- `n` edges from `i` to `j`, of which the last one leaves the interval from `a` to `b`. -/
inductive Way (E : Nat → Nat → G → Prop) (a b : Nat) : Nat → Nat → Nat → G → Prop
  | out {i : Nat} : ¬ (a ≤ i ∧ i < b) → Way E a b 0 i i 0
  | step {n i k j : Nat} {u v : G} : a ≤ i → i < b → E i k u → Way E a b n k j v →
      Way E a b (n + 1) i j (u + v)

/-! ### Sets of weights -/

/-- A weight from each of two sets. -/
def Plus (R T : G → Prop) (w : G) : Prop := ∃ u v, R u ∧ T v ∧ w = u + v

/-- One weight only. -/
def Only (u : G) (w : G) : Prop := w = u

def Never (_ : G) : Prop := False

def Either (R T : G → Prop) (w : G) : Prop := R w ∨ T w

/-- Any number of weights from `T`, and one from `R` at last. -/
inductive Laps (T R : G → Prop) : G → Prop
  | last {w : G} : R w → Laps T R w
  | lap {u v : G} : T u → Laps T R v → Laps T R (u + v)

variable {a b m t i j k n : Nat} {u v w : G} {R T F : G → Prop}

theorem plus_zero_left : Plus (Only 0) R w ↔ R w := by
  constructor
  · rintro ⟨u, v, rfl, hv, rfl⟩
    rwa [zero_add]
  · exact fun h => ⟨0, w, rfl, h, (zero_add w).symm⟩

theorem plus_zero_right : Plus R (Only 0) w ↔ R w := by
  constructor
  · rintro ⟨u, v, hu, rfl, rfl⟩
    rwa [add_zero]
  · exact fun h => ⟨w, 0, h, rfl, (add_zero w).symm⟩

theorem plus_assoc {S : G → Prop} : Plus (Plus R T) S w ↔ Plus R (Plus T S) w := by
  constructor
  · rintro ⟨x, z, ⟨r, s, hr, hs, rfl⟩, hz, rfl⟩
    exact ⟨r, s + z, hr, ⟨s, z, hs, hz, rfl⟩, add_assoc r s z⟩
  · rintro ⟨r, x, hr, ⟨s, z, hs, hz, rfl⟩, rfl⟩
    exact ⟨r + s, z, ⟨r, s, hr, hs, rfl⟩, hz, (add_assoc r s z).symm⟩

/-! ### Paths -/

theorem Way.outside (h : Way E a b n i j w) (hi : ¬ (a ≤ i ∧ i < b)) : n = 0 ∧ j = i ∧ w = 0 := by
  cases h with
  | out => exact ⟨rfl, rfl, rfl⟩
  | step ha hb => exact absurd ⟨ha, hb⟩ hi

/-- A path through an interval goes through a part of it first. -/
theorem Way.split {a' b' : Nat} (ha' : a ≤ a') (hb' : b' ≤ b) (h : Way E a b n i j w) :
    ∃ n₁ n₂ k u v, Way E a' b' n₁ i k u ∧ Way E a b n₂ k j v ∧ n = n₁ + n₂ ∧ w = u + v := by
  induction h with
  | @out i hi =>
      have hout : ¬ (a' ≤ i ∧ i < b') := fun hin =>
        hi ⟨Nat.le_trans ha' hin.1, Nat.lt_of_lt_of_le hin.2 hb'⟩
      exact ⟨0, 0, i, 0, 0, .out hout, .out hi, rfl, (add_zero 0).symm⟩
  | @step n i k j u v ha hb he hrest ih =>
      by_cases hin : a' ≤ i ∧ i < b'
      · obtain ⟨n₁, n₂, l, x, y, hfirst, hsecond, rfl, rfl⟩ := ih
        refine ⟨n₁ + 1, n₂, l, u + x, y, .step hin.1 hin.2 he hfirst, hsecond, ?_, (add_assoc u x y).symm⟩
        rw [Nat.add_assoc, Nat.add_comm n₂, ← Nat.add_assoc]
      · exact ⟨0, n + 1, i, 0, u + v, .out hin, .step ha hb he hrest, (Nat.zero_add _).symm,
          (zero_add _).symm⟩

theorem Way.join {a' b' n' : Nat} (ha' : a ≤ a') (hb' : b' ≤ b) (h : Way E a' b' n i k u)
    (hrest : Way E a b n' k j v) : Way E a b (n + n') i j (u + v) := by
  induction h with
  | out =>
      rw [Nat.zero_add, zero_add]
      exact hrest
  | @step n i k j x y ha hb he _ ih =>
      rw [Nat.add_right_comm, add_assoc x y v]
      exact .step (Nat.le_trans ha' ha) (Nat.lt_of_lt_of_le hb hb') he (ih hrest)

/-! ### Code with one exit -/

/-- All paths through the code from `a` to `b` leave it at `c`, and `R` are their weights. -/
def Passes (E : Nat → Nat → G → Prop) (a b c : Nat) (R : G → Prop) : Prop :=
  ∀ j w, (∃ n, Way E a b n a j w) ↔ j = c ∧ R w

theorem Passes.congr {c : Nat} (h : Passes E a b c R) (hR : ∀ w, R w ↔ T w) : Passes E a b c T :=
  fun j w => (h j w).trans (and_congr_right fun _ => hR w)

/-- The same positions in another form. -/
theorem Passes.at {a' b' c c' : Nat} (h : Passes E a b c R) (ha : a = a') (hb : b = b') (hc : c = c') :
    Passes E a' b' c' R :=
  ha ▸ hb ▸ hc ▸ h

theorem passes_nil (a : Nat) : Passes E a a a (Only (0 : G)) := by
  intro j w
  have hout : ¬ (a ≤ a ∧ a < a) := fun h => Nat.lt_irrefl a h.2
  constructor
  · rintro ⟨n, h⟩
    obtain ⟨-, rfl, rfl⟩ := h.outside hout
    exact ⟨rfl, rfl⟩
  · rintro ⟨rfl, rfl⟩
    exact ⟨0, .out hout⟩

/-- One edge. -/
theorem passes_edge {c : Nat} (hab : a < b) (hc : ¬ (a ≤ c ∧ c < b)) (h : ∀ k u, E a k u ↔ k = c ∧ u = w) :
    Passes E a b c (Only w) := by
  intro j v
  constructor
  · rintro ⟨n, hpath⟩
    cases hpath with
    | out hout => exact absurd ⟨Nat.le_refl a, hab⟩ hout
    | step _ _ he hrest =>
        obtain ⟨rfl, rfl⟩ := (h _ _).mp he
        obtain ⟨-, rfl, rfl⟩ := hrest.outside hc
        exact ⟨rfl, add_zero _⟩
  · rintro ⟨rfl, rfl⟩
    have hpath := Way.step (Nat.le_refl a) hab ((h j v).mpr ⟨rfl, rfl⟩) (.out hc)
    rw [add_zero] at hpath
    exact ⟨_, hpath⟩

/-- No edge at all. -/
theorem passes_stuck {c : Nat} (hab : a < b) (h : ∀ k u, ¬ E a k u) : Passes E a b c Never := by
  intro j w
  constructor
  · rintro ⟨n, hpath⟩
    cases hpath with
    | out hout => exact absurd ⟨Nat.le_refl a, hab⟩ hout
    | step _ _ he _ => exact absurd he (h _ _)
  · exact fun h => h.2.elim

theorem Passes.append {c : Nat} (hr : Passes E a m m R) (ht : Passes E m b c T) (ham : a ≤ m) (hmb : m ≤ b)
    (hc : ¬ (a ≤ c ∧ c < b)) : Passes E a b c (Plus R T) := by
  intro j w
  constructor
  · rintro ⟨n, h⟩
    obtain ⟨n₁, n₂, k, u, v, hfirst, hrest, -, rfl⟩ := h.split (Nat.le_refl a) hmb
    obtain ⟨rfl, hu⟩ := (hr _ _).mp ⟨n₁, hfirst⟩
    obtain ⟨n₃, n₄, l, x, y, hsecond, hend, -, rfl⟩ := hrest.split ham (Nat.le_refl b)
    obtain ⟨rfl, hx⟩ := (ht _ _).mp ⟨n₃, hsecond⟩
    obtain ⟨-, rfl, rfl⟩ := hend.outside hc
    refine ⟨rfl, u, x, hu, hx, ?_⟩
    rw [add_zero]
  · rintro ⟨rfl, u, v, hu, hv, rfl⟩
    obtain ⟨n₁, hfirst⟩ := (hr _ _).mpr ⟨rfl, hu⟩
    obtain ⟨n₂, hsecond⟩ := (ht _ _).mpr ⟨rfl, hv⟩
    have hrest := hsecond.join ham (Nat.le_refl b) (.out hc)
    rw [add_zero v] at hrest
    exact ⟨_, hfirst.join (Nat.le_refl a) hmb hrest⟩

/-! ### Code with a jump out of it -/

/-- All paths through the code from `a` to `b` leave it at its end, with a weight in `R`, or at `t`,
with a weight in `F`. -/
def Branches (E : Nat → Nat → G → Prop) (a b t : Nat) (R F : G → Prop) : Prop :=
  ∀ j w, (∃ n, Way E a b n a j w) ↔ j = b ∧ R w ∨ j = t ∧ F w

theorem Branches.congr {R' F' : G → Prop} (h : Branches E a b t R F) (hR : ∀ w, R w ↔ R' w)
    (hF : ∀ w, F w ↔ F' w) : Branches E a b t R' F' :=
  fun j w => (h j w).trans (or_congr (and_congr_right fun _ => hR w) (and_congr_right fun _ => hF w))

theorem branches_nil (a t : Nat) : Branches E a a t (Only (0 : G)) Never := fun j w =>
  (passes_nil a j w).trans ⟨Or.inl, fun h => h.resolve_right fun h => h.2⟩

/-- A conditional jump. -/
theorem branches_edge (hab : a < b) (ht : ¬ (a ≤ t ∧ t < b))
    (h : ∀ k u, E a k u ↔ (k = b ∨ k = t) ∧ u = 0) : Branches E a b t (Only 0) (Only 0) := by
  have hb : ¬ (a ≤ b ∧ b < b) := fun h => Nat.lt_irrefl b h.2
  intro j v
  constructor
  · rintro ⟨n, hpath⟩
    cases hpath with
    | out hout => exact absurd ⟨Nat.le_refl a, hab⟩ hout
    | step _ _ he hrest =>
        obtain ⟨rfl | rfl, rfl⟩ := (h _ _).mp he
        · obtain ⟨-, rfl, rfl⟩ := hrest.outside hb
          exact .inl ⟨rfl, add_zero _⟩
        · obtain ⟨-, rfl, rfl⟩ := hrest.outside ht
          exact .inr ⟨rfl, add_zero _⟩
  · have hpath : ∀ k, k = b ∨ k = t → ¬ (a ≤ k ∧ k < b) → ∃ n, Way E a b n a k 0 := by
      intro k hk hout
      have hpath := Way.step (Nat.le_refl a) hab ((h k 0).mpr ⟨hk, rfl⟩) (.out hout)
      rw [add_zero] at hpath
      exact ⟨_, hpath⟩
    rintro (⟨rfl, rfl⟩ | ⟨rfl, rfl⟩)
    · exact hpath j (.inl rfl) hb
    · exact hpath j (.inr rfl) ht

theorem Passes.branch (hr : Passes E a m m R) (hbr : Branches E m b t T F) (ham : a ≤ m) (hmb : m ≤ b)
    (ht : ¬ (a ≤ t ∧ t < b)) : Branches E a b t (Plus R T) (Plus R F) := by
  have hb : ¬ (a ≤ b ∧ b < b) := fun h => Nat.lt_irrefl b h.2
  intro j w
  constructor
  · rintro ⟨n, h⟩
    obtain ⟨n₁, n₂, k, u, v, hfirst, hrest, -, rfl⟩ := h.split (Nat.le_refl a) hmb
    obtain ⟨rfl, hu⟩ := (hr _ _).mp ⟨n₁, hfirst⟩
    obtain ⟨n₃, n₄, l, x, y, hsecond, hend, -, rfl⟩ := hrest.split ham (Nat.le_refl b)
    rcases (hbr _ _).mp ⟨n₃, hsecond⟩ with ⟨rfl, hx⟩ | ⟨rfl, hx⟩
    · obtain ⟨-, rfl, rfl⟩ := hend.outside hb
      exact .inl ⟨rfl, u, x, hu, hx, by rw [add_zero]⟩
    · obtain ⟨-, rfl, rfl⟩ := hend.outside ht
      exact .inr ⟨rfl, u, x, hu, hx, by rw [add_zero]⟩
  · have hpath : ∀ {u v}, R u → (∃ n, Way E m b n m j v) → ¬ (a ≤ j ∧ j < b) →
        ∃ n, Way E a b n a j (u + v) := by
      rintro u v hu ⟨n₂, hsecond⟩ hj
      obtain ⟨n₁, hfirst⟩ := (hr _ _).mpr ⟨rfl, hu⟩
      have hrest := hsecond.join ham (Nat.le_refl b) (.out hj)
      rw [add_zero v] at hrest
      exact ⟨_, hfirst.join (Nat.le_refl a) hmb hrest⟩
    rintro (⟨rfl, u, v, hu, hv, rfl⟩ | ⟨rfl, u, v, hu, hv, rfl⟩)
    · exact hpath hu ((hbr _ _).mpr (.inl ⟨rfl, hv⟩)) hb
    · exact hpath hu ((hbr _ _).mpr (.inr ⟨rfl, hv⟩)) ht

/-- A conditional: the code behind the branch is passed, or what the branch leads to. -/
theorem Branches.choose {S : G → Prop} {e : Nat} (hbr : Branches E a m t R F) (hthen : Passes E m t e T)
    (helse : Passes E t e e S) (ham : a ≤ m) (hmt : m ≤ t) (hte : t ≤ e) :
    Passes E a e e (Either (Plus R T) (Plus F S)) := by
  have he : ¬ (a ≤ e ∧ e < e) := fun h => Nat.lt_irrefl e h.2
  intro j w
  constructor
  · rintro ⟨n, h⟩
    obtain ⟨n₁, n₂, k, u, v, hfirst, hrest, -, rfl⟩ := h.split (Nat.le_refl a) (Nat.le_trans hmt hte)
    rcases (hbr _ _).mp ⟨n₁, hfirst⟩ with ⟨rfl, hu⟩ | ⟨rfl, hu⟩
    · obtain ⟨n₃, n₄, l, x, y, hsecond, hend, -, rfl⟩ := hrest.split ham hte
      obtain ⟨rfl, hx⟩ := (hthen _ _).mp ⟨n₃, hsecond⟩
      obtain ⟨-, rfl, rfl⟩ := hend.outside he
      exact ⟨rfl, .inl ⟨u, x, hu, hx, by rw [add_zero]⟩⟩
    · obtain ⟨n₃, n₄, l, x, y, hsecond, hend, -, rfl⟩ := hrest.split (Nat.le_trans ham hmt) (Nat.le_refl e)
      obtain ⟨rfl, hx⟩ := (helse _ _).mp ⟨n₃, hsecond⟩
      obtain ⟨-, rfl, rfl⟩ := hend.outside he
      exact ⟨rfl, .inr ⟨u, x, hu, hx, by rw [add_zero]⟩⟩
  · rintro ⟨rfl, ⟨u, v, hu, hv, rfl⟩ | ⟨u, v, hu, hv, rfl⟩⟩
    · obtain ⟨n₁, hfirst⟩ := (hbr _ _).mpr (.inl ⟨rfl, hu⟩)
      obtain ⟨n₂, hsecond⟩ := (hthen _ _).mpr ⟨rfl, hv⟩
      have hrest := hsecond.join ham hte (.out he)
      rw [add_zero v] at hrest
      exact ⟨_, hfirst.join (Nat.le_refl a) (Nat.le_trans hmt hte) hrest⟩
    · obtain ⟨n₁, hfirst⟩ := (hbr _ _).mpr (.inr ⟨rfl, hu⟩)
      obtain ⟨n₂, hsecond⟩ := (helse _ _).mpr ⟨rfl, hv⟩
      have hrest := hsecond.join (Nat.le_trans ham hmt) (Nat.le_refl _) (.out he)
      rw [add_zero v] at hrest
      exact ⟨_, hfirst.join (Nat.le_refl a) (Nat.le_trans hmt hte) hrest⟩

/-- A loop: the code behind the branch leads to an edge back to the start. -/
theorem Branches.loop {l : Nat} (hbr : Branches E a m b R F) (hbody : Passes E m l l T)
    (hback : ∀ k u, E l k u ↔ k = a ∧ u = 0) (ham : a ≤ m) (hml : m ≤ l) (hlb : l < b) :
    Passes E a b b (Laps (Plus R T) F) := by
  have hb : ¬ (a ≤ b ∧ b < b) := fun h => Nat.lt_irrefl b h.2
  have hal := Nat.le_trans ham hml
  have hmb := Nat.le_trans hml (Nat.le_of_lt hlb)
  have hlaps : ∀ n w j, Way E a b n a j w → j = b ∧ Laps (Plus R T) F w := by
    intro n
    induction n using Nat.strongRecOn with
    | ind n ih =>
        intro w j h
        obtain ⟨n₁, n₂, k, u, v, hfirst, hrest, rfl, rfl⟩ := h.split (Nat.le_refl a) hmb
        rcases (hbr _ _).mp ⟨n₁, hfirst⟩ with ⟨rfl, hu⟩ | ⟨rfl, hu⟩
        · obtain ⟨n₃, n₄, i, x, y, hsecond, hnext, rfl, rfl⟩ := hrest.split ham (Nat.le_of_lt hlb)
          obtain ⟨rfl, hx⟩ := (hbody _ _).mp ⟨n₃, hsecond⟩
          cases hnext with
          | out hout => exact absurd ⟨hal, hlb⟩ hout
          | step _ _ he hnext =>
              obtain ⟨rfl, rfl⟩ := (hback _ _).mp he
              obtain ⟨hj, hy⟩ := ih _ (by omega) _ j hnext
              rw [zero_add, ← add_assoc]
              exact ⟨hj, .lap ⟨u, x, hu, hx, rfl⟩ hy⟩
        · obtain ⟨-, rfl, rfl⟩ := hrest.outside hb
          rw [add_zero]
          exact ⟨rfl, .last hu⟩
  intro j w
  constructor
  · exact fun ⟨n, h⟩ => hlaps n w j h
  · rintro ⟨rfl, h⟩
    induction h with
    | @last w hu =>
        obtain ⟨n₁, hfirst⟩ := (hbr _ _).mpr (.inr ⟨rfl, hu⟩)
        have h := hfirst.join (Nat.le_refl a) hmb (.out hb)
        rw [add_zero w] at h
        exact ⟨_, h⟩
    | @lap u v hu _ ih =>
        obtain ⟨r, x, hr, hx, rfl⟩ := hu
        obtain ⟨n₁, hfirst⟩ := (hbr _ _).mpr (.inl ⟨rfl, hr⟩)
        obtain ⟨n₂, hsecond⟩ := (hbody _ _).mpr ⟨rfl, hx⟩
        obtain ⟨n₃, hlast⟩ := ih
        have hnext := Way.step hal hlb ((hback a 0).mpr ⟨rfl, rfl⟩) hlast
        rw [zero_add] at hnext
        rw [add_assoc]
        exact ⟨_, hfirst.join (Nat.le_refl a) hmb (hsecond.join ham (Nat.le_of_lt hlb) hnext)⟩

end Paths

end Eke
