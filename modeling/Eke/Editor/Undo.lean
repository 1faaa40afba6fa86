/-
Backspace behind a character or Enter.

Of documents: what is inserted is removed again, and a line that is split is joined again if it has
fewer than 73 characters.  A line may have 73, and the two parts of such a line are not joined; so
Enter is undone but for full lines.  `undone_iff` says this of the editor and its arrays.
-/
import Eke.Editor.Session

namespace Eke

namespace Document

variable {d : Document}

theorem ext_fields {d' : Document} (hlines : d'.lines = d.lines) (hy : d'.y = d.y) (hx : d'.x = d.x) :
    d' = d := by
  cases d
  cases d'
  obtain rfl := hlines
  obtain rfl := hy
  obtain rfl := hx
  rfl

/-- The character that was inserted is the one that is removed. -/
theorem backspace_insert (h : Good d) (hroom : (d.line d.y).length < 73) (c : Byte) :
    (d.insert c).backspace = d := by
  have hx := h.x_le
  have hlen : ((d.line d.y).take d.x).length = d.x := List.length_take_of_le hx
  have hinsert : d.insert c =
      { d.setLine ((d.line d.y).take d.x ++ c :: (d.line d.y).drop d.x) with x := d.x + 1 } := by
    unfold insert
    simp only [if_pos hroom]
  have hline : (d.insert c).line (d.insert c).y = (d.line d.y).take d.x ++ c :: (d.line d.y).drop d.x := by
    rw [hinsert]
    exact line_set h.y_lt _ _ _
  have hpos : 0 < (d.insert c).x := by
    rw [hinsert]
    exact Nat.succ_pos _
  unfold backspace
  simp only [if_pos hpos, hline]
  rw [hinsert]
  have htake : ((d.line d.y).take d.x ++ c :: (d.line d.y).drop d.x).take d.x = (d.line d.y).take d.x :=
    List.take_left' hlen
  have hdrop : ((d.line d.y).take d.x ++ c :: (d.line d.y).drop d.x).drop (d.x + 1) =
      (d.line d.y).drop d.x := by
    rw [List.append_cons]
    exact List.drop_left' (by rw [List.length_append, hlen]; rfl)
  refine ext_fields ?_ rfl rfl
  show (d.lines.set d.y _).set d.y _ = d.lines
  rw [List.set_set, Nat.add_sub_cancel, htake, hdrop, List.take_append_drop, line,
    List.getD_eq_getElem _ _ h.y_lt, List.set_getElem_self]

theorem enter_eq (hroom : d.lines.length < 128) : d.enter =
    { lines := d.lines.take d.y ++ (d.line d.y).take d.x :: (d.line d.y).drop d.x :: d.lines.drop (d.y + 1)
      y := d.y + 1, x := 0 } := by
  unfold enter
  simp only [if_pos hroom]

/-- The two parts of a line are joined if it has fewer than 73 characters. -/
theorem backspace_enter (h : Good d) (hroom : d.lines.length < 128) :
    d.enter.backspace = if (d.line d.y).length < 73 then d else d.enter := by
  have hsplit := @getElem?_split _ d.lines d.y
  have hfirst : d.enter.line d.y = (d.line d.y).take d.x := by
    rw [enter_eq hroom, line, List.getD_eq_getElem?_getD, hsplit h.y_lt, if_neg (Nat.lt_irrefl _),
      if_pos rfl]
    rfl
  have hsecond : d.enter.line (d.y + 1) = (d.line d.y).drop d.x := by
    rw [enter_eq hroom, line, List.getD_eq_getElem?_getD, hsplit h.y_lt, if_neg (by omega),
      if_neg (by omega), if_pos rfl]
    rfl
  have hy : d.enter.y = d.y + 1 := congrArg Document.y (enter_eq hroom)
  have hx : d.enter.x = 0 := congrArg Document.x (enter_eq hroom)
  have hsum : ((d.line d.y).take d.x).length + ((d.line d.y).drop d.x).length = (d.line d.y).length := by
    rw [← List.length_append, List.take_append_drop]
  unfold backspace
  simp only [hx, hy, Nat.add_sub_cancel, hfirst, hsecond, hsum, Nat.lt_irrefl, if_false, Nat.succ_pos,
    if_true, List.take_append_drop]
  split
  · have hlen : (d.lines.take d.y).length = d.y := List.length_take_of_le (Nat.le_of_lt h.y_lt)
    have htake : d.enter.lines.take d.y = d.lines.take d.y := by
      rw [enter_eq hroom]
      exact List.take_left' hlen
    have hdrop : d.enter.lines.drop (d.y + 1 + 1) = d.lines.drop (d.y + 1) := by
      rw [enter_eq hroom]
      show (d.lines.take d.y ++ ([_, _] ++ d.lines.drop (d.y + 1))).drop _ = _
      rw [← List.append_assoc]
      exact List.drop_left' (by rw [List.length_append, hlen]; rfl)
    refine ext_fields ?_ rfl (List.length_take_of_le h.x_le)
    show d.enter.lines.take d.y ++ d.line d.y :: d.enter.lines.drop (d.y + 1 + 1) = d.lines
    rw [htake, hdrop, line, List.getD_eq_getElem _ _ h.y_lt, ← List.drop_eq_getElem_cons h.y_lt,
      List.take_append_drop]
  · rfl

end Document

namespace Editor

variable {φ : Type} {s t u : Editor φ} {d d' : Document} {c : Byte}

/-- The lines, their lengths, their number and the cursor are those of another state. -/
structure Restored (s u : Editor φ) : Prop where
  total : u.total_lines = s.total_lines
  y : u.cur_y = s.cur_y
  x : u.cur_x = s.cur_x
  len : ∀ j, 0 ≤ j → j < s.total_lines → u.line_lens j = s.line_lens j
  chars : ∀ j i, 0 ≤ j → j < s.total_lines → 0 ≤ i → i ≤ s.line_lens j → u.lines j i = s.lines j i

theorem Restored.holds (h : Restored s u) (hs : Holds s d) : Holds u d := by
  refine ⟨hs.good, h.total.trans hs.total, h.y.trans hs.y, h.x.trans hs.x, fun j l hj => ?_⟩
  obtain ⟨hlt, -, hrow⟩ := hs.row_of hj
  have htotal := hs.total
  have hlen := hrow.len
  exact hrow.copied (h.len j (by omega) (by omega)) fun i h0 hi =>
    h.chars j i (by omega) (by omega) (by omega) (by omega)

/-- Two states have the same lines and cursor if they hold the same document. -/
theorem restored_iff (hs : Holds s d) (hu : Holds u d') : Restored s u ↔ d' = d := by
  constructor
  · intro h
    exact hu.view.symm.trans (h.holds hs).view
  · rintro rfl
    have hrows : ∀ j : Int, 0 ≤ j → j < s.total_lines → ∃ l, Row s j l ∧ Row u j l := by
      intro j h0 hj
      have htotal := hs.total
      have hs' := hs.row_at (j := j.toNat) (by omega)
      have hu' := hu.row_at (j := j.toNat) (by omega)
      rw [Int.toNat_of_nonneg h0] at hs' hu'
      exact ⟨_, hs', hu'⟩
    refine ⟨hu.total.trans hs.total.symm, hu.y.trans hs.y.symm, hu.x.trans hs.x.symm, fun j h0 hj => ?_,
      fun j i h0 hj hi hle => ?_⟩
    · obtain ⟨l, hs', hu'⟩ := hrows j h0 hj
      exact hu'.len.trans hs'.len.symm
    · obtain ⟨l, hs', hu'⟩ := hrows j h0 hj
      have hlen := hs'.len
      exact (hu'.char hi (by omega)).trans (hs'.char hi (by omega)).symm

/-- If the key changes the document, Backspace right behind it takes that back. -/
def Undone (fs : Option (FS_API φ)) (c : Byte) (s : Editor φ) : Prop :=
  ∃ b t, key fs c s = .ok b t ∧
    ((view t).lines ≠ (view s).lines → ∃ b' u, key fs 8 t = .ok b' u ∧ Restored s u)

theorem undone_document (fs : Option (FS_API φ)) (h : Holds s d) :
    Undone fs c s ↔ ((d.key c).lines ≠ d.lines → (d.key c).backspace = d) := by
  obtain ⟨t, ht, htdoc, -⟩ := key_leads fs h c
  obtain ⟨u, hu, hudoc, -⟩ := key_leads fs htdoc 8
  unfold Undone
  constructor
  · rintro ⟨b, t', ht', hundo⟩ hchanged
    cases ht.symm.trans ht'
    rw [htdoc.view, h.view] at hundo
    obtain ⟨b', u', hu', hback⟩ := hundo hchanged
    cases hu.symm.trans hu'
    exact (restored_iff h hudoc).mp hback
  · intro hback
    refine ⟨_, t, ht, fun hchanged => ⟨_, u, hu, ?_⟩⟩
    rw [htdoc.view, h.view] at hchanged
    exact (restored_iff h hudoc).mpr (hback hchanged)

theorem key_printable (h : 32 ≤ c.toNat ∧ c.toNat ≤ 126) : d.key c = d.insert c := by
  have hne : ∀ k : Byte, ¬ (32 ≤ k.toNat ∧ k.toNat ≤ 126) → c ≠ k := by
    rintro k hk rfl
    exact hk h
  unfold Document.key
  rw [if_neg (hne _ (by decide)), if_neg (hne _ (by decide)), if_neg (hne _ (by decide)),
    if_neg (hne _ (by decide)), if_neg (hne _ (by decide)), if_neg (hne _ (by decide)),
    if_neg (hne _ (by decide)), if_pos h]

/-- A printable character is always taken back, Enter but in a line of 73 characters that it splits. -/
theorem undone_iff (fs : Option (FS_API φ)) (s : Editor φ) (h : Valid s) (c : Byte)
    (hc : c = 10 ∨ 32 ≤ c.toNat ∧ c.toNat ≤ 126) :
    Undone fs c s ↔ ¬ (c = 10 ∧ s.total_lines < MAX_LINES ∧ s.line_lens s.cur_y = MAX_COLS - 1) := by
  have hdoc := h.holds
  have hgood := hdoc.good
  have htotal := hdoc.total
  have hlen : s.line_lens s.cur_y = ((view s).line (view s).y).length := by
    rw [hdoc.y]
    exact hdoc.row.len
  have hmax := hgood.line_le hgood.y_lt
  rw [undone_document fs hdoc]
  unfold MAX_LINES MAX_COLS
  rcases hc with rfl | hprint
  · have hkey : (view s).key 10 = (view s).enter := rfl
    rw [hkey]
    by_cases hroom : (view s).lines.length < 128
    · have hchanged : (view s).enter.lines ≠ (view s).lines := by
        intro heq
        have hsplit := congrArg List.length heq
        rw [Document.enter_eq hroom, List.length_append, List.length_cons, List.length_cons,
          List.length_take, List.length_drop] at hsplit
        have hy := hgood.y_lt
        omega
      rw [Document.backspace_enter hgood hroom]
      by_cases hjoin : ((view s).line (view s).y).length < 73
      · rw [if_pos hjoin]
        refine iff_of_true (fun _ => rfl) ?_
        rintro ⟨-, -, hfull⟩
        omega
      · rw [if_neg hjoin]
        refine iff_of_false (fun hback => ?_) (not_not.mpr ⟨rfl, by omega, by omega⟩)
        exact hchanged (congrArg Document.lines (hback hchanged))
    · have hsame : (view s).enter = view s := by
        unfold Document.enter
        simp only [if_neg hroom]
      rw [hsame]
      refine iff_of_true (fun hchanged => absurd rfl hchanged) ?_
      rintro ⟨-, hlt, -⟩
      omega
  · have hne : c ≠ 10 := by
      rintro rfl
      exact absurd hprint.1 (by decide)
    rw [key_printable hprint]
    refine iff_of_true (fun hchanged => ?_) fun hfull => hne hfull.1
    by_cases hroom : ((view s).line (view s).y).length < 73
    · exact Document.backspace_insert hgood hroom c
    · refine absurd ?_ hchanged
      unfold Document.insert
      simp only [if_neg hroom]

theorem undone_letter : Undone none 97 (fresh ()) ↔
    ¬ ((97 : Byte) = 10 ∧ (fresh ()).total_lines < MAX_LINES ∧
      (fresh ()).line_lens (fresh ()).cur_y = MAX_COLS - 1) :=
  undone_iff none (fresh ()) (fresh_valid ()) 97 (.inr (by decide))

/-- A line of 73 characters, with the cursor at its end. -/
def fullLine : Editor Unit :=
  { fresh () with
    lines := fun _ x => if x = 73 then 0 else 97
    line_lens := fun _ => 73
    cur_x := 73 }

theorem fullLine_valid : Valid fullLine :=
  ⟨⟨Int.le_refl 1, (by decide : (1 : Int) ≤ 128)⟩, ⟨Int.le_refl 0, Int.zero_lt_one⟩,
    ⟨(by decide : (0 : Int) ≤ 73), Int.le_refl 73⟩,
    fun _ _ _ => ⟨(by decide : (0 : Int) ≤ 73), Int.le_refl 73⟩, fun _ _ _ => rfl⟩

/-- Enter behind the last character of a full line cannot be taken back. -/
theorem full_line_splits : ¬ ∀ s : Editor Unit, Valid s → ∀ c : Byte,
    c = 10 ∨ 32 ≤ c.toNat ∧ c.toNat ≤ 126 → Undone none c s := by
  intro h
  have hundo := h fullLine fullLine_valid 10 (.inl rfl)
  have hroom : (view fullLine).lines.length < 128 := by decide
  have hfull : ¬ ((view fullLine).line (view fullLine).y).length < 73 := by decide
  have hback := (undone_document none fullLine_valid.holds).mp hundo
  have hkey : (view fullLine).key 10 = (view fullLine).enter := rfl
  rw [hkey, Document.backspace_enter fullLine_valid.holds.good hroom, if_neg hfull] at hback
  have hlines : (view fullLine).enter.lines.length = 2 := by decide
  have hone : (view fullLine).lines.length = 1 := by decide
  have hchanged : (view fullLine).enter.lines ≠ (view fullLine).lines := by
    intro heq
    rw [heq, hone] at hlines
    cases hlines
  exact hchanged (congrArg Document.lines (hback hchanged))

end Editor

end Eke
