/-
The arrays of the editor.

Every loop over the lines copies characters: within a line to the left or to the right, from one
line to another, or whole lines up and down.  Each is described by the state it leaves, which
says of every cell where its character comes from.
-/
import Eke.Editor.Editor
import Mathlib.Tactic.SplitIfs

namespace Eke

namespace Editor

open Prog

variable {φ : Type} {s t : Editor φ} {x y n : Int} {c : Byte}

/-- Other lines and lengths. -/
def arrays (s : Editor φ) (lines : Int → Int → Byte) (line_lens : Int → Int) : Editor φ :=
  { s with lines := lines, line_lens := line_lens }

theorem arrays_self (s : Editor φ) : s.arrays s.lines s.line_lens = s := rfl

theorem arrays_congr {L L' : Int → Int → Byte} {N N' : Int → Int} (hL : ∀ j i, L j i = L' j i)
    (hN : ∀ j, N j = N' j) : s.arrays L N = s.arrays L' N' := by
  rw [funext fun j => funext fun i => hL j i, funext hN]

/-! ### Access -/

/-- A cell of the array. -/
structure Cell (y x : Int) : Prop where
  row : 0 ≤ y ∧ y < 128
  col : 0 ≤ x ∧ x < 74

theorem getChar_ok (h : Cell y x) : getChar y x s = .ok (s.lines y x) s := by
  unfold getChar
  rw [if_pos ⟨h.row.1, h.row.2, h.col.1, h.col.2⟩]
  rfl

theorem setChar_ok (h : Cell y x) : setChar y x c s =
    .ok () (s.arrays (fun j i => if j = y ∧ i = x then c else s.lines j i) s.line_lens) := by
  unfold setChar
  rw [if_pos ⟨h.row.1, h.row.2, h.col.1, h.col.2⟩]
  rfl

theorem getLen_ok (h : 0 ≤ y ∧ y < 128) : getLen y s = .ok (s.line_lens y) s := by
  unfold getLen
  rw [if_pos ⟨h.1, h.2⟩]
  rfl

theorem setLen_ok (h : 0 ≤ y ∧ y < 128) : setLen y n s =
    .ok () (s.arrays s.lines fun j => if j = y then n else s.line_lens j) := by
  unfold setLen
  rw [if_pos ⟨h.1, h.2⟩]
  rfl

/-- A character is copied. -/
theorem copy_ok {ys xs yd xd : Int} (hs : Cell ys xs) (hd : Cell yd xd) :
    (do let ch ← getChar ys xs; setChar yd xd ch) s =
      .ok () (s.arrays (fun j i => if j = yd ∧ i = xd then s.lines ys xs else s.lines j i) s.line_lens) := by
  rw [bind_of_ok (getChar_ok hs)]
  exact setChar_ok hd

/-! ### Copying a row of characters -/

/-- A loop that goes up and reads no character it has written. -/
theorem copy_up (ys yd : Int) (src dst : Int → Int) {a b q : Int} (hab : a ≤ b) (hdst : ∀ i, dst i = i + q)
    (hs : ∀ i, a ≤ i → i < b → Cell ys (src i)) (hd : ∀ i, a ≤ i → i < b → Cell yd (dst i))
    (hsafe : ys = yd → ∀ i k, a ≤ k → k < i → i < b → src i ≠ k + q) :
    forUp a b (fun i => do let ch ← getChar ys (src i); setChar yd (dst i) ch) s =
      .ok () (s.arrays (fun j i => if j = yd ∧ a + q ≤ i ∧ i < b + q then s.lines ys (src (i - q))
        else s.lines j i) s.line_lens) := by
  have h := forUp_ok (σ := Editor φ) (fun i => do let ch ← getChar ys (src i); setChar yd (dst i) ch)
    (fun k => s.arrays (fun j i => if j = yd ∧ a + q ≤ i ∧ i < k + q then s.lines ys (src (i - q))
      else s.lines j i) s.line_lens) hab fun i hi hb => ?_
  · have hstart : s.arrays (fun j i => if j = yd ∧ a + q ≤ i ∧ i < a + q then s.lines ys (src (i - q))
        else s.lines j i) s.line_lens = s := by
      refine (arrays_congr (fun j i => if_neg ?_) fun _ => rfl).trans (arrays_self s)
      omega
    rw [hstart] at h
    exact h
  · rw [copy_ok (hs i hi hb) (hd i hi hb)]
    refine congrArg (Out.ok ()) (arrays_congr (fun j x => ?_) fun _ => rfl)
    have hread : ¬ (ys = yd ∧ a + q ≤ src i ∧ src i < i + q) := by
      rintro ⟨hy, h1, h2⟩
      exact hsafe hy i (src i - q) (by omega) (by omega) hb (by omega)
    simp only [arrays, if_neg hread, hdst]
    by_cases hx : j = yd ∧ x = i + q
    · obtain ⟨rfl, rfl⟩ := hx
      rw [if_pos ⟨rfl, rfl⟩, if_pos ⟨rfl, by omega, by omega⟩, show i + q - q = i by omega]
    · rw [if_neg hx]
      by_cases hin : j = yd ∧ a + q ≤ x ∧ x < i + q
      · rw [if_pos hin, if_pos ⟨hin.1, hin.2.1, by omega⟩]
      · rw [if_neg hin, if_neg (by omega)]

/-- The characters from column `b` to `a` go one to the right. -/
theorem shift_right {a b : Int} (hab : b ≤ a + 1) (hy : 0 ≤ y ∧ y < 128) (hb : 0 ≤ b) (ha : a + 1 < 74) :
    forDown a b (fun i => do let ch ← getChar y i; setChar y (i + 1) ch) s =
      .ok () (s.arrays (fun j i => if j = y ∧ b + 1 ≤ i ∧ i ≤ a + 1 then s.lines y (i - 1)
        else s.lines j i) s.line_lens) := by
  have h := forDown_ok (σ := Editor φ) (fun i => do let ch ← getChar y i; setChar y (i + 1) ch)
    (fun k => s.arrays (fun j i => if j = y ∧ k + 2 ≤ i ∧ i ≤ a + 1 then s.lines y (i - 1)
      else s.lines j i) s.line_lens) hab fun i hi hia => ?_
  · have hstart : s.arrays (fun j i => if j = y ∧ a + 2 ≤ i ∧ i ≤ a + 1 then s.lines y (i - 1)
        else s.lines j i) s.line_lens = s := by
      refine (arrays_congr (fun j i => if_neg ?_) fun _ => rfl).trans (arrays_self s)
      omega
    rw [hstart, show b - 1 + 2 = b + 1 by omega] at h
    exact h
  · rw [copy_ok ⟨hy, by omega, by omega⟩ ⟨hy, by omega, by omega⟩]
    refine congrArg (Out.ok ()) (arrays_congr (fun j x => ?_) fun _ => rfl)
    simp only [arrays]
    rw [if_neg (show ¬ (True ∧ i + 2 ≤ i ∧ i ≤ a + 1) by omega)]
    by_cases hx : j = y ∧ x = i + 1
    · obtain ⟨rfl, rfl⟩ := hx
      rw [if_pos ⟨rfl, rfl⟩, if_pos ⟨rfl, by omega, by omega⟩, show i + 1 - 1 = i by omega]
    · rw [if_neg hx]
      by_cases hin : j = y ∧ i + 2 ≤ x ∧ x ≤ a + 1
      · rw [if_pos hin, if_pos ⟨hin.1, by omega, hin.2.2⟩]
      · rw [if_neg hin, if_neg (by omega)]

/-! ### Copying lines -/

/-- The line `src` is a line the source could print: its terminator is in the array. -/
def Fits (s : Editor φ) (y : Int) : Prop := 0 ≤ s.line_lens y ∧ s.line_lens y < 74

theorem copy_line_ok {dst src : Int} (hd : 0 ≤ dst ∧ dst < 128) (hs : 0 ≤ src ∧ src < 128) (hne : dst ≠ src)
    (hfit : Fits s src) : copy_line dst src s =
      .ok () (s.arrays (fun j i => if j = dst ∧ 0 ≤ i ∧ i < s.line_lens src + 1 then s.lines src i
        else s.lines j i) fun j => if j = dst then s.line_lens src else s.line_lens j) := by
  unfold copy_line
  rw [bind_of_ok (getLen_ok hs)]
  have hloop := copy_up (s := s) src dst (fun i => i) (fun i => i) (a := 0) (b := s.line_lens src + 1) (q := 0)
    (by have := hfit.1; omega) (fun i => (Int.add_zero i).symm)
    (fun i _ _ => ⟨hs, by have := hfit.2; omega⟩) (fun i _ _ => ⟨hd, by have := hfit.2; omega⟩)
    (fun hc => absurd hc.symm hne)
  simp only [Int.add_zero, Int.sub_zero] at hloop
  rw [bind_of_ok hloop, setLen_ok hd]
  rfl

/-- The lines from `a + 1` to `b` go one up. -/
theorem lines_up {a b : Int} (hab : a ≤ b) (ha : 0 ≤ a) (hb : b < 128)
    (hfit : ∀ l, a < l → l ≤ b → Fits s l) :
    forUp a b (fun l => copy_line l (l + 1)) s =
      .ok () (s.arrays (fun j i => if a ≤ j ∧ j < b ∧ 0 ≤ i ∧ i < s.line_lens (j + 1) + 1 then s.lines (j + 1) i
        else s.lines j i) fun j => if a ≤ j ∧ j < b then s.line_lens (j + 1) else s.line_lens j) := by
  have h := forUp_ok (σ := Editor φ) (fun l => copy_line l (l + 1))
    (fun k => s.arrays (fun j i => if a ≤ j ∧ j < k ∧ 0 ≤ i ∧ i < s.line_lens (j + 1) + 1 then
      s.lines (j + 1) i else s.lines j i) fun j => if a ≤ j ∧ j < k then s.line_lens (j + 1) else s.line_lens j)
    hab fun l hl hlb => ?_
  · have hstart : s.arrays (fun j i => if a ≤ j ∧ j < a ∧ 0 ≤ i ∧ i < s.line_lens (j + 1) + 1 then
        s.lines (j + 1) i else s.lines j i) (fun j => if a ≤ j ∧ j < a then s.line_lens (j + 1)
          else s.line_lens j) = s := by
      refine (arrays_congr (fun j i => if_neg ?_) fun j => if_neg ?_).trans (arrays_self s)
      · omega
      · omega
    rw [hstart] at h
    exact h
  · have hlen : ∀ k : Int, k ≤ l + 1 → (if a ≤ l + 1 ∧ l + 1 < k then s.line_lens (l + 1 + 1)
        else s.line_lens (l + 1)) = s.line_lens (l + 1) := fun k hk => if_neg (by omega)
    rw [copy_line_ok ⟨by omega, by omega⟩ ⟨by omega, by omega⟩ (by omega)
      (show Fits (s.arrays _ _) (l + 1) by
        unfold Fits arrays
        simp only [hlen l (by omega)]
        exact hfit (l + 1) (by omega) (by omega))]
    refine congrArg (Out.ok ()) (arrays_congr (fun j i => ?_) fun j => ?_)
    · simp only [arrays, hlen l (by omega)]
      rw [if_neg (show ¬ (a ≤ l + 1 ∧ l + 1 < l ∧ 0 ≤ i ∧ i < s.line_lens (l + 1 + 1) + 1) by omega)]
      by_cases hj : j = l
      · subst hj
        by_cases hi : 0 ≤ i ∧ i < s.line_lens (j + 1) + 1
        · rw [if_pos ⟨rfl, hi⟩, if_pos ⟨hl, by omega, hi⟩]
        · rw [if_neg fun hc => hi hc.2, if_neg (by omega), if_neg fun hc => hi hc.2.2]
      · rw [if_neg fun hc => hj hc.1]
        by_cases hin : a ≤ j ∧ j < l ∧ 0 ≤ i ∧ i < s.line_lens (j + 1) + 1
        · rw [if_pos hin, if_pos ⟨hin.1, by omega, hin.2.2⟩]
        · rw [if_neg hin, if_neg (by omega)]
    · simp only [arrays, hlen l (by omega)]
      by_cases hj : j = l
      · subst hj
        rw [if_pos rfl, if_pos ⟨hl, by omega⟩]
      · rw [if_neg hj]
        by_cases hin : a ≤ j ∧ j < l
        · rw [if_pos hin, if_pos ⟨hin.1, by omega⟩]
        · rw [if_neg hin, if_neg (by omega)]

/-- The lines from `b - 1` to `a - 1` go one down. -/
theorem lines_down {a b : Int} (hab : b ≤ a + 1) (hb : 1 ≤ b) (ha : a < 128)
    (hfit : ∀ l, b ≤ l + 1 → l < a → Fits s l) :
    forDown a b (fun l => copy_line l (l - 1)) s =
      .ok () (s.arrays (fun j i => if b ≤ j ∧ j ≤ a ∧ 0 ≤ i ∧ i < s.line_lens (j - 1) + 1 then s.lines (j - 1) i
        else s.lines j i) fun j => if b ≤ j ∧ j ≤ a then s.line_lens (j - 1) else s.line_lens j) := by
  have h := forDown_ok (σ := Editor φ) (fun l => copy_line l (l - 1))
    (fun k => s.arrays (fun j i => if k + 1 ≤ j ∧ j ≤ a ∧ 0 ≤ i ∧ i < s.line_lens (j - 1) + 1 then
      s.lines (j - 1) i else s.lines j i) fun j => if k + 1 ≤ j ∧ j ≤ a then s.line_lens (j - 1)
        else s.line_lens j) hab fun l hl hla => ?_
  · have hstart : s.arrays (fun j i => if a + 1 ≤ j ∧ j ≤ a ∧ 0 ≤ i ∧ i < s.line_lens (j - 1) + 1 then
        s.lines (j - 1) i else s.lines j i) (fun j => if a + 1 ≤ j ∧ j ≤ a then s.line_lens (j - 1)
          else s.line_lens j) = s := by
      refine (arrays_congr (fun j i => if_neg ?_) fun j => if_neg ?_).trans (arrays_self s)
      · omega
      · omega
    rw [hstart, show b - 1 + 1 = b by omega] at h
    exact h
  · have hlen : (if l + 1 ≤ l - 1 ∧ l - 1 ≤ a then s.line_lens (l - 1 - 1) else s.line_lens (l - 1)) =
        s.line_lens (l - 1) := if_neg (by omega)
    rw [copy_line_ok ⟨by omega, by omega⟩ ⟨by omega, by omega⟩ (by omega)
      (show Fits (s.arrays _ _) (l - 1) by
        unfold Fits arrays
        simp only [hlen]
        exact hfit (l - 1) (by omega) (by omega))]
    refine congrArg (Out.ok ()) (arrays_congr (fun j i => ?_) fun j => ?_)
    · simp only [arrays, hlen]
      rw [if_neg (show ¬ (l + 1 ≤ l - 1 ∧ l - 1 ≤ a ∧ 0 ≤ i ∧ i < s.line_lens (l - 1 - 1) + 1) by omega)]
      by_cases hj : j = l
      · subst hj
        by_cases hi : 0 ≤ i ∧ i < s.line_lens (j - 1) + 1
        · rw [if_pos ⟨rfl, hi⟩, if_pos ⟨by omega, hla, hi⟩]
        · rw [if_neg fun hc => hi hc.2, if_neg (by omega), if_neg fun hc => hi hc.2.2]
      · rw [if_neg fun hc => hj hc.1]
        by_cases hin : l + 1 ≤ j ∧ j ≤ a ∧ 0 ≤ i ∧ i < s.line_lens (j - 1) + 1
        · rw [if_pos hin, if_pos ⟨by omega, hin.2⟩]
        · rw [if_neg hin, if_neg (by omega)]
    · simp only [arrays, hlen]
      by_cases hj : j = l
      · subst hj
        rw [if_pos rfl, if_pos ⟨by omega, hla⟩]
      · rw [if_neg hj]
        by_cases hin : l + 1 ≤ j ∧ j ≤ a
        · rw [if_pos hin, if_pos ⟨by omega, hin.2⟩]
        · rw [if_neg hin, if_neg (by omega)]

end Editor

end Eke
