/-
The shell remembers what was submitted.

What Enter submits is read off a session as it goes: the line in front of `pos`, before the command
has put a zero into it.  The history is the end of the list of these without its stutter, because
every key keeps it so: only Enter changes the history, and it compares with the last entry, which is
the last of the list as well.  Walking through the history changes neither it nor the draft, so the
line that was typed is there again when the walk is over.
-/
import Eke.Kernel.Shell
import Eke.Lib.Ring

namespace Eke

open CString Prog

/-! ### What Enter records -/

namespace Prompt

variable {p : Prompt} {c : Byte}

theorem up_history (p : Prompt) : p.up.history = p.history := by
  unfold up
  by_cases hnil : p.history = []
  · rw [if_pos hnil]
  · rw [if_neg hnil]
    cases p.browse with
    | none => rfl
    | some k => rfl

theorem down_history (p : Prompt) : p.down.history = p.history := by
  unfold down
  cases p.browse with
  | none => rfl
  | some k =>
      show (if k + 1 < p.history.length then p.called (k + 1)
        else { p with line := p.draft, browse := none }).history = p.history
      split
      · rfl
      · rfl

theorem type_history (p : Prompt) (c : Byte) : (p.type c).history = p.history := by
  unfold type
  split
  · rfl
  · rfl

theorem enter_history (p : Prompt) :
    p.enter.history = if p.line = [] then p.history else recorded p.history p.line := by
  unfold enter
  split
  · rfl
  · rfl

/-- Only Enter changes the history. -/
theorem key_history (p : Prompt) (c : Byte) : (p.key c).history =
    if c = 0x0A ∧ p.line ≠ [] then recorded p.history p.line else p.history := by
  have hother : ∀ {c : Byte} {q : Prompt}, c ≠ 0x0A → q.history = p.history → q.history =
      if c = 0x0A ∧ p.line ≠ [] then recorded p.history p.line else p.history := by
    intro c q hne hq
    rw [if_neg fun h => hne h.1]
    exact hq
  refine p.key_cases (motive := fun c q => q.history =
    if c = 0x0A ∧ p.line ≠ [] then recorded p.history p.line else p.history) ?_ ?_ ?_ ?_ ?_ ?_ ?_ c
  · intro c hne
    exact hother hne rfl
  · exact hother (by decide) rfl
  · exact hother (by decide) p.up_history
  · exact hother (by decide) p.down_history
  · rw [enter_history]
    by_cases hnil : p.line = []
    · rw [if_pos hnil, if_neg fun h => h.2 hnil]
    · rw [if_neg hnil, if_pos ⟨rfl, hnil⟩]
  · exact hother (by decide) rfl
  · rintro c ⟨hle, -⟩
    refine hother ?_ (p.type_history c)
    rintro rfl
    exact absurd hle (by decide)

/-- The end of a list without its stutter, with another element. -/
theorem recorded_destutter (l : List (List Byte)) (x : List Byte) :
    recorded (lastOf SHELL_HIST_MAX (l.destutter (· ≠ ·))) x =
      lastOf SHELL_HIST_MAX ((l ++ [x]).destutter (· ≠ ·)) := by
  unfold recorded
  rw [lastOf_getLast? (by decide), destutter_concat]
  by_cases hlast : (l.destutter (· ≠ ·)).getLast? = some x
  · rw [if_pos hlast, if_pos hlast]
  · rw [if_neg hlast, if_neg hlast, lastOf_concat]

end Prompt

namespace Shell

variable {s : Shell} {p : Prompt} {commands : Commands} {c : Byte}

/-- The characters typed so far. -/
def typed (s : Shell) : List Byte := (List.range s.pos).map s.line

/-- What Enter submits, one line after the other. -/
def submitted (commands : Commands) : List Byte → Shell → List (List Byte)
  | [], _ => []
  | c :: cs, s =>
      (if c = 0x0A ∧ 0 < s.pos then [s.typed] else []) ++
        match key commands c s with
        | .ok _ s' => submitted commands cs s'
        | _ => []

/-- The strings in the history. -/
def entries (s : Shell) : List (Option (List Byte)) :=
  (List.range s.shell_hist_count).map fun k => textFrom (s.shell_history k) LINE_SIZE 0

theorem Stands.typed (h : Stands s p) : s.typed = p.line := by
  unfold Shell.typed
  rw [h.pos]
  refine List.ext_getElem (by rw [List.length_map, List.length_range]) fun k hk hk' => ?_
  rw [List.getElem_map, List.getElem_range]
  exact h.line.chars k hk'

theorem Stands.texts (h : Stands s p) : s.entries = p.history.map some := by
  unfold Shell.entries
  rw [h.count]
  refine List.ext_getElem (by rw [List.length_map, List.length_map, List.length_range]) fun k hk hk' => ?_
  rw [List.length_map] at hk'
  rw [List.getElem_map, List.getElem_range, List.getElem_map]
  exact (h.entries k hk').text

/-- A session adds what it submits. -/
theorem history_run (commands : Commands) (cs : List Byte) : ∀ {s : Shell} {p : Prompt}
    (l : List (List Byte)), Stands s p →
    p.history = lastOf SHELL_HIST_MAX (l.destutter (· ≠ ·)) → (cs.foldl Prompt.key p).history =
      lastOf SHELL_HIST_MAX ((l ++ submitted commands cs s).destutter (· ≠ ·)) := by
  induction cs with
  | nil =>
      intro s p l _ hl
      rw [show submitted commands [] s = [] from rfl, List.append_nil]
      exact hl
  | cons c cs ih =>
      intro s p l h hl
      obtain ⟨t, hkey, ht, -⟩ := key_ok commands h c
      have hsubmitted : submitted commands (c :: cs) s =
          (if c = 0x0A ∧ 0 < s.pos then [s.typed] else []) ++ submitted commands cs t := by
        show _ ++ (match key commands c s with
          | .ok _ s' => submitted commands cs s'
          | _ => []) = _
        rw [hkey]
      have hsome : (c = 0x0A ∧ 0 < s.pos) ↔ (c = 0x0A ∧ p.line ≠ []) := by
        rw [h.pos, List.length_pos_iff]
      rw [hsubmitted, h.typed, List.foldl_cons, ← List.append_assoc]
      refine ih _ ht ?_
      rw [Prompt.key_history, hl]
      by_cases henter : c = 0x0A ∧ p.line ≠ []
      · rw [if_pos henter, if_pos (hsome.mpr henter)]
        exact Prompt.recorded_destutter l p.line
      · rw [if_neg henter, if_neg fun h => henter (hsome.mp h), List.append_nil]

/-- **The history.**  After any keys it holds the last sixteen of the submitted lines, each of them
whole, without the ones that repeat the line before; and a walk is at an entry, or there is none. -/
theorem history_records (commands : Commands) (line : Nat → Byte) (tty : Tty) (cs : List Byte) :
    ∃ s, keys commands cs (start line tty) = .ok () s ∧
      s.entries = (lastOf SHELL_HIST_MAX
        ((submitted commands cs (start line tty)).destutter (· ≠ ·))).map some ∧
      (s.shell_hist_browse = -1 ∨ 0 ≤ s.shell_hist_browse ∧ s.shell_hist_browse < s.shell_hist_count) := by
  obtain ⟨s, hrun, hs⟩ := keys_ok commands cs (start_ok line tty)
  refine ⟨s, hrun, ?_, ?_⟩
  · rw [hs.texts, history_run commands cs [] (start_ok line tty) rfl, List.nil_append]
  · have hcount := hs.count
    have hvalid := hs.valid.browse
    rw [hs.browse]
    cases hbrowse : (cs.foldl Prompt.key ⟨[], [], none, []⟩).browse with
    | none => exact Or.inl rfl
    | some k =>
        have hk := hvalid k hbrowse
        rw [browseIndex_some]
        exact Or.inr ⟨by omega, by omega⟩

end Shell

/-! ### Walking through the history -/

namespace Prompt

variable {p q : Prompt} {c : Byte}

/-- Where a walk that began with the line of `p` may be. -/
structure Walked (p q : Prompt) : Prop where
  history : q.history = p.history
  back : q.browse = none → q.line = p.line
  at_entry : ∀ k, q.browse = some k → p.history[k]? = some q.line ∧ q.draft = p.line

theorem Walked.called (h : q.history = p.history) (hdraft : q.draft = p.line) {k : Nat}
    (hk : k < p.history.length) : Walked p (q.called k) := by
  refine ⟨h, nofun, fun j hj => ⟨?_, hdraft⟩⟩
  obtain rfl := Option.some.inj hj
  show p.history[k]? = some (q.history.getD k [])
  rw [h, List.getElem?_eq_getElem hk, List.getD_eq_getElem _ _ hk]

/-- At the last entry first, then from each to the one before, and not beyond the first. -/
theorem Walked.up (h : Walked p q) (hsome : p.history ≠ []) : Walked p q.up := by
  have hlen : 0 < p.history.length := List.length_pos_iff.mpr hsome
  unfold Prompt.up
  rw [if_neg (by rw [h.history]; exact hsome)]
  cases hbrowse : q.browse with
  | none =>
      refine Walked.called (q := { q with draft := q.line }) h.history (h.back hbrowse) ?_
      rw [h.history]
      omega
  | some k =>
      obtain ⟨hline, hdraft⟩ := h.at_entry k hbrowse
      have hk : k < p.history.length := (List.getElem?_eq_some_iff.mp hline).1
      exact Walked.called h.history hdraft (by omega)

theorem Walked.down (h : Walked p q) : Walked p q.down := by
  unfold Prompt.down
  cases hbrowse : q.browse with
  | none => exact h
  | some k =>
      obtain ⟨-, hdraft⟩ := h.at_entry k hbrowse
      dsimp only
      by_cases hlast : k + 1 < q.history.length
      · rw [if_pos hlast]
        exact Walked.called h.history hdraft (by rw [← h.history]; exact hlast)
      · rw [if_neg hlast]
        exact ⟨h.history, fun _ => hdraft, nofun⟩

theorem Walked.key (h : Walked p q) (hsome : p.history ≠ [])
    (hc : c = Keyboard.KEY_UP ∨ c = Keyboard.KEY_DOWN) : Walked p (q.key c) := by
  rcases hc with rfl | rfl
  · exact h.up hsome
  · exact h.down

theorem Walked.keys (hsome : p.history ≠ []) (cs : List Byte)
    (hcs : ∀ c ∈ cs, c = Keyboard.KEY_UP ∨ c = Keyboard.KEY_DOWN) :
    ∀ {q : Prompt}, Walked p q → Walked p (cs.foldl Prompt.key q) := by
  induction cs with
  | nil =>
      intro q h
      exact h
  | cons c cs ih =>
      intro q h
      exact ih (fun d hd => hcs d (List.mem_cons_of_mem c hd)) (h.key hsome (hcs c List.mem_cons_self))

end Prompt

namespace Shell

variable {s : Shell} {p : Prompt} {commands : Commands}

/-- At the first entry Up only draws the line again. -/
theorem key_up_oldest (h : Stands s p) (hbrowse : p.browse = some 0) (hline : p.history[0]? = some p.line) :
    ∃ tty, key_up s = .ok () { s with tty := tty } := by
  obtain ⟨hlen, hentry⟩ := List.getElem?_eq_some_iff.mp hline
  have hcount := h.count
  have hindex : s.shell_hist_browse = 0 := by
    rw [h.browse, hbrowse]
    rfl
  have hread : entry 0 s = .ok (s.shell_history 0) s := entry_ok (by decide) (by decide)
  have hholds := h.entries 0 hlen
  rw [hentry] at hholds
  obtain ⟨tty, hrun⟩ := retype_same hholds h.line h.pos
  have hstay : step_back s = .ok () s := by
    unfold step_back
    rw [bind_gets, bind_gets, hindex]
    rfl
  have hshow : show_entry s = retype (s.shell_history 0) s := by
    unfold show_entry
    rw [bind_gets, hindex, bind_of_ok hread]
  refine ⟨tty, ?_⟩
  unfold key_up
  rw [bind_gets, if_pos (by omega), bind_of_ok hstay, hshow, hrun]

theorem key_down_not_browsing (h : s.shell_hist_browse = -1) : key_down s = .ok () s := by
  unfold key_down
  rw [bind_gets, if_neg (not_not.mpr h)]
  rfl

/-- **Walking through the history.**  Whatever Up and Down are pressed from a line that is being
typed: when the walk is over the line is there again, and until then the line is the entry the walk
is at.  Up at the first entry and Down without a walk leave all but the screen as it is. -/
theorem walk_gives_back (commands : Commands) (h : Stands s p) (hsome : p.history ≠ [])
    (hnone : p.browse = none) (cs : List Byte)
    (hcs : ∀ c ∈ cs, c = Keyboard.KEY_UP ∨ c = Keyboard.KEY_DOWN) :
    ∃ s', keys commands cs s = .ok () s' ∧ s'.entries = s.entries ∧
      textFrom s'.line LINE_SIZE 0 = some s'.typed ∧
      (s'.shell_hist_browse = -1 ∧ s'.typed = s.typed ∧ s'.pos = s.pos ∧
          key commands Keyboard.KEY_DOWN s' = .ok () s' ∨
        ∃ k : Nat, s'.shell_hist_browse = k ∧ s.entries[k]? = some (some s'.typed) ∧
          (k = 0 → ∃ tty, key commands Keyboard.KEY_UP s' = .ok () { s' with tty := tty })) := by
  obtain ⟨s', hrun, hs'⟩ := keys_ok commands cs h
  have hwalk : Prompt.Walked p (cs.foldl Prompt.key p) :=
    Prompt.Walked.keys hsome cs hcs ⟨rfl, fun _ => rfl, fun k hk => by rw [hnone] at hk; cases hk⟩
  refine ⟨s', hrun, ?_, ?_, ?_⟩
  · rw [hs'.texts, h.texts, hwalk.history]
  · rw [hs'.typed]
    exact hs'.line.text
  · cases hbrowse : (cs.foldl Prompt.key p).browse with
    | none =>
        have hline := hwalk.back hbrowse
        have hindex : s'.shell_hist_browse = -1 := by
          rw [hs'.browse, hbrowse]
          rfl
        refine Or.inl ⟨hindex, ?_, ?_, key_down_not_browsing hindex⟩
        · rw [hs'.typed, h.typed, hline]
        · rw [hs'.pos, h.pos, hline]
    | some k =>
        obtain ⟨hline, -⟩ := hwalk.at_entry k hbrowse
        refine Or.inr ⟨k, ?_, ?_, ?_⟩
        · rw [hs'.browse, hbrowse]
          rfl
        · rw [h.texts, hs'.typed, List.getElem?_map, hline]
          rfl
        · rintro rfl
          rw [← hwalk.history] at hline
          exact key_up_oldest hs' hbrowse hline

/-- A shell with the command `a` in its history, where `b` is typed. -/
def oneTyped : Shell where
  line := fun i => if i = 0 then 0x62 else 0
  pos := 1
  shell_history := fun _ i => if i = 0 then 0x61 else 0
  shell_hist_count := 1
  shell_hist_browse := -1
  shell_draft := fun _ => 0
  tty := (Tty.terminal_initialize .zero).puts PROMPT

theorem one_char_holds {b : Byte} (hb : b ≠ 0) : Holds LINE_SIZE (fun i => if i = 0 then b else 0) [b] := by
  refine ⟨show 1 < 128 by decide, fun c hc => ?_, fun k hk => ?_, rfl⟩
  · rw [List.mem_singleton.mp hc]
    exact hb
  · obtain rfl : k = 0 := Nat.lt_one_iff.mp hk
    rfl

theorem oneTyped_stands : Stands oneTyped ⟨[0x62], [[0x61]], none, []⟩ := by
  refine ⟨rfl, one_char_holds (by decide), rfl, fun k hk => ?_, rfl, .nil (by decide) rfl, by decide, nofun⟩
  obtain rfl : k = 0 := Nat.lt_one_iff.mp hk
  exact one_char_holds (by decide)

/-- Commands that print nothing. -/
def silent : Commands := ⟨fun _ _ tty => tty, fun _ tty => tty⟩

/-- Up, Up and Down: `b` is in the line again, or the walk is at `a`. -/
theorem one_typed_walk :
    ∃ s', keys silent [Keyboard.KEY_UP, Keyboard.KEY_UP, Keyboard.KEY_DOWN] oneTyped = .ok () s' ∧
      (s'.shell_hist_browse = -1 ∧ s'.typed = [0x62] ∨
        ∃ k : Nat, s'.shell_hist_browse = k ∧ oneTyped.entries[k]? = some (some s'.typed)) := by
  obtain ⟨s', hrun, -, -, hwalk⟩ := walk_gives_back silent oneTyped_stands
    (List.cons_ne_nil _ _) rfl [Keyboard.KEY_UP, Keyboard.KEY_UP, Keyboard.KEY_DOWN] (by decide)
  refine ⟨s', hrun, hwalk.imp (fun h => ⟨h.1, h.2.1⟩) fun h => ?_⟩
  obtain ⟨k, hindex, hentry, -⟩ := h
  exact ⟨k, hindex, hentry⟩

end Shell

end Eke
