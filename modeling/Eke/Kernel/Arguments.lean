/-
The arguments of a shell command.

`next_token` copies a word into a buffer and stops when the buffer is full; the next call goes on
with the rest of the same word.  So the words of the argument string come whole exactly if they fit,
and `compile` takes the end of a long file name for the name of its output.
-/
import Mathlib.Data.List.Basic
import Eke.Lib.Bytes

namespace Eke

namespace Shell

/-- `' '` -/
def SPACE : Byte := 32

/-- `while (*p == ' ') p++;` -/
def skip (p : List Byte) : List Byte := p.dropWhile (· == SPACE)

/-- The loop that fills the buffer while `room` characters fit, and what is left. -/
def fill : Nat → List Byte → List Byte × List Byte
  | _, [] => ([], [])
  | room, c :: p =>
      if c ≠ SPACE ∧ 0 < room then
        let (buf, rest) := fill (room - 1) p
        (c :: buf, rest)
      else ([], c :: p)

/-- The string in `buf`, if there is one, and where `p` is then. -/
def next_token (p : List Byte) (max_len : Nat) : Option (List Byte) × List Byte :=
  let p := skip p
  if p = [] then (none, p)
  else
    let (buf, rest) := fill (max_len - 1) p
    (some buf, skip rest)

/-- What `n` calls in a row give. -/
def next_tokens : Nat → List Byte → List (Option (List Byte))
  | 0, _ => []
  | n + 1, p => (next_token p 32).1 :: next_tokens n (next_token p 32).2

/-- A file name up to its first dot. -/
def stem (file : List Byte) : List Byte := (file.takeWhile (· ≠ 46)).take 31

/-- `"a.out"` -/
def A_OUT : List Byte := [97, 46, 111, 117, 116]

/-- The names `cmd_compile` calls `compile_file` with: the source, the output and the module. -/
def cmd_compile (fs : Bool) (args : List Byte) : Option (List Byte × List Byte × List Byte) :=
  if args = [] then none
  else if fs = false then none
  else
    let (src, p) := next_token args 32
    let (out, _) := next_token p 32
    src.map fun src => (src, out.getD A_OUT, stem src)

/-- The file, the type and the name that `cmd_makemod` goes on with. -/
def cmd_makemod (fs : Bool) (args : List Byte) : Option (List Byte × List Byte × List Byte) :=
  if args = [] then none
  else if fs = false then none
  else
    let (file, p) := next_token args 32
    let (type_str, p) := next_token p 32
    let (name, _) := next_token p 32
    file.bind fun file => type_str.map fun type_str => (file, type_str, name.getD (stem file))

/-! ### Words -/

/-- The maximal pieces of a string without spaces. -/
def words (s : List Byte) : List (List Byte) := (s.splitOnP (· == SPACE)).filter (· ≠ [])

variable {s p w rest : List Byte} {n : Nat}

theorem words_space : words (SPACE :: s) = words s := by
  unfold words
  rw [List.splitOnP_cons_eq_if_modifyHead]
  rfl

theorem words_skip : words (skip s) = words s := by
  induction s with
  | nil => rfl
  | cons c s ih =>
      unfold skip
      rw [List.dropWhile_cons]
      by_cases hc : c = SPACE
      · rw [hc, if_pos (by decide), words_space]
        exact ih
      · rw [if_neg (by simpa using hc)]

/-- A word, and what comes behind it. -/
theorem words_append (hne : w ≠ []) (hw : ∀ c ∈ w, c ≠ SPACE)
    (hrest : rest = [] ∨ rest.head? = some SPACE) : words (w ++ rest) = w :: words rest := by
  have hnone : ∀ c ∈ w, (c == SPACE) = false := fun c hc => beq_eq_false_iff_ne.mpr (hw c hc)
  have hkeep : ∀ ws : List (List Byte), (w :: ws).filter (· ≠ []) = w :: ws.filter (· ≠ []) :=
    fun ws => List.filter_cons_of_pos (decide_eq_true hne)
  rcases hrest with rfl | hhead
  · unfold words
    rw [List.append_nil, List.splitOnP_eq_singleton hnone, hkeep]
    rfl
  · obtain ⟨r, rfl⟩ : ∃ r, rest = SPACE :: r := by
      cases rest with
      | nil => cases hhead
      | cons c r =>
          cases hhead
          exact ⟨r, rfl⟩
    rw [words_space]
    unfold words
    rw [List.splitOnP_append_cons_of_forall_mem hnone SPACE (by decide), hkeep]

/-- Where the letters end there is a space. -/
theorem head_dropWhile : s.dropWhile (· ≠ SPACE) = [] ∨ (s.dropWhile (· ≠ SPACE)).head? = some SPACE := by
  have hhead := List.head?_dropWhile_not (· ≠ SPACE) s
  cases hdrop : s.dropWhile (· ≠ SPACE) with
  | nil => exact .inl rfl
  | cons c r =>
      rw [hdrop] at hhead
      exact .inr (congrArg some (not_not.mp (of_decide_eq_false hhead)))

/-- Behind the spaces there is nothing, or the first word. -/
theorem words_first (h : skip p ≠ []) : words p =
    (skip p).takeWhile (· ≠ SPACE) :: words ((skip p).dropWhile (· ≠ SPACE)) := by
  have hword : (skip p).takeWhile (· ≠ SPACE) ≠ [] := by
    have hhead : ((skip p).head h == SPACE) = false := List.head_dropWhile_not (· == SPACE) h
    have hne := decide_eq_true (beq_eq_false_iff_ne.mp hhead)
    rw [← List.cons_head_tail h, List.takeWhile_cons, if_pos hne]
    exact List.cons_ne_nil _ _
  have hplain : ∀ c ∈ (skip p).takeWhile (· ≠ SPACE), c ≠ SPACE :=
    fun c hc => of_decide_eq_true (List.all_eq_true.mp List.all_takeWhile c hc)
  have hsplit := words_append hword hplain (@head_dropWhile (skip p))
  rwa [List.takeWhile_append_dropWhile, words_skip] at hsplit

/-- A string with a word begins with it, behind the spaces. -/
theorem words_split {ws : List (List Byte)} (h : words p = w :: ws) : w ≠ [] ∧ (∀ c ∈ w, c ≠ SPACE) ∧
    ∃ r, skip p = w ++ r ∧ (r = [] ∨ r.head? = some SPACE) ∧ words r = ws := by
  have hskip : skip p ≠ [] := by
    intro hnil
    rw [← words_skip, hnil] at h
    cases h
  obtain ⟨hw, hws⟩ := List.cons.inj ((words_first hskip).symm.trans h)
  have hmem : w ∈ words p := by
    rw [h]
    exact List.mem_cons_self
  have hne : decide (w ≠ []) = true := (List.mem_filter.mp hmem).2
  refine ⟨of_decide_eq_true hne, fun c hc => ?_, _, ?_, head_dropWhile, hws⟩
  · rw [← hw] at hc
    exact of_decide_eq_true (List.all_eq_true.mp List.all_takeWhile c hc)
  · rw [← hw, List.takeWhile_append_dropWhile]

/-! ### Tokens -/

/-- The buffer takes what fits of a word. -/
theorem fill_word (hw : ∀ c ∈ w, c ≠ SPACE) (hrest : rest = [] ∨ rest.head? = some SPACE) (room : Nat) :
    fill room (w ++ rest) = (w.take room, w.drop room ++ rest) := by
  induction w generalizing room with
  | nil =>
      rw [List.take_nil, List.drop_nil, List.nil_append]
      cases rest with
      | nil => rfl
      | cons c r =>
          have hc : c = SPACE := Option.some_inj.mp (hrest.resolve_left (List.cons_ne_nil _ _))
          exact if_neg fun h => h.1 hc
  | cons c w ih =>
      have hc : c ≠ SPACE := hw c List.mem_cons_self
      have htail := ih (fun d hd => hw d (List.mem_cons_of_mem _ hd))
      rw [List.cons_append, fill]
      cases room with
      | zero => exact if_neg fun h => absurd h.2 (Nat.lt_irrefl 0)
      | succ room =>
          rw [if_pos ⟨hc, Nat.succ_pos room⟩, Nat.add_sub_cancel, htail]
          rfl

/-- A string without words gives no token. -/
theorem next_token_nil {m : Nat} (h : words p = []) : next_token p m = (none, []) := by
  have hskip : skip p = [] := by
    by_contra hne
    rw [words_first hne] at h
    cases h
  unfold next_token
  rw [hskip]
  rfl

variable {m : Nat} {ws : List (List Byte)} {args : List Byte}

/-- A token is what fits of the first word. -/
theorem next_token_eq (h : words p = w :: ws) : ∃ r, (r = [] ∨ r.head? = some SPACE) ∧ words r = ws ∧
    next_token p m = (some (w.take (m - 1)), skip (w.drop (m - 1) ++ r)) := by
  obtain ⟨hne, hw, r, hskip, hr, hws⟩ := words_split h
  refine ⟨r, hr, hws, ?_⟩
  unfold next_token
  rw [hskip, if_neg (List.append_ne_nil_of_left_ne_nil hne r), fill_word hw hr]

theorem next_token_short (h : words p = w :: ws) (hlen : w.length < 32) :
    (next_token p 32).1 = some w ∧ words (next_token p 32).2 = ws := by
  obtain ⟨r, -, hws, htoken⟩ := @next_token_eq p w 32 ws h
  rw [htoken, List.take_of_length_le (by omega), List.drop_of_length_le (by omega)]
  exact ⟨rfl, words_skip.trans hws⟩

/-- The rest of a long word is the next token. -/
theorem next_token_long (h : words p = w :: ws) (hlen : 32 ≤ w.length) :
    (next_token p 32).1 = some (w.take 31) ∧ words (next_token p 32).2 = w.drop 31 :: ws := by
  obtain ⟨r, hr, hws, htoken⟩ := @next_token_eq p w 32 ws h
  obtain ⟨-, hw, -⟩ := words_split h
  have hne : w.drop 31 ≠ [] := by
    intro hnil
    have := List.drop_eq_nil_iff.mp hnil
    omega
  rw [htoken]
  refine ⟨rfl, ?_⟩
  rw [words_skip, words_append hne (fun c hc => hw c (List.mem_of_mem_drop hc)) hr, hws]

theorem take_ne (hlen : 32 ≤ w.length) : w.take 31 ≠ w := by
  intro heq
  have hle := congrArg List.length heq
  rw [List.length_take] at hle
  omega

/-! ### Whole words -/

/-- The first `n` words fit into a buffer. -/
def Short (n : Nat) (args : List Byte) : Prop := ∀ w ∈ (words args).take n, w.length < 32

/-- `n` calls give the first `n` words; there is no token when there are no words any more. -/
def Whole (n : Nat) (args : List Byte) : Prop :=
  next_tokens n args = (List.range n).map fun k => (words args)[k]?

instance : Decidable (Whole n args) := inferInstanceAs (Decidable (_ = _))

theorem whole_succ : Whole (n + 1) p ↔ (next_token p 32).1 = (words p)[0]? ∧
    next_tokens n (next_token p 32).2 = (List.range n).map fun k => (words p)[k + 1]? := by
  unfold Whole
  rw [List.range_succ_eq_map, List.map_cons, List.map_map, next_tokens, List.cons_eq_cons]
  rfl

theorem short_cons (h : words p = w :: ws) :
    Short (n + 1) p ↔ w.length < 32 ∧ ∀ v ∈ ws.take n, v.length < 32 := by
  unfold Short
  rw [h, List.take_succ_cons, List.forall_mem_cons]

theorem short_nil (h : words p = []) : Short n p := by
  intro w hw
  rw [h, List.take_nil] at hw
  cases hw

theorem whole_iff : ∀ {n : Nat} {p : List Byte}, Whole n p ↔ Short n p := by
  intro n
  induction n with
  | zero =>
      intro p
      exact iff_of_true rfl nofun
  | succ n ih =>
      intro p
      rw [whole_succ]
      cases hwords : words p with
      | nil =>
          have hrest := (@ih []).mpr (short_nil rfl)
          rw [next_token_nil hwords]
          exact iff_of_true ⟨rfl, hrest.trans (List.map_congr_left fun k _ => rfl)⟩ (short_nil hwords)
      | cons w ws =>
          rw [short_cons hwords]
          rcases Nat.lt_or_ge w.length 32 with hlt | hge
          · obtain ⟨htoken, hws⟩ := next_token_short hwords hlt
            have htail := @ih (next_token p 32).2
            unfold Whole Short at htail
            rw [hws] at htail
            exact and_congr (iff_of_true htoken hlt) htail
          · obtain ⟨htoken, -⟩ := next_token_long hwords hge
            refine iff_of_false (fun h => take_ne hge ?_) fun h => Nat.not_lt.mpr hge h.1
            exact Option.some_inj.mp (htoken.symm.trans h.1)

/-! ### The commands -/

/-- `compile` is refused, or the names are the words. -/
def CompileWhole (args : List Byte) : Prop :=
  cmd_compile true args = none ∨ cmd_compile true args =
    (words args)[0]?.map fun src => (src, (words args)[1]?.getD A_OUT, stem src)

def MakemodWhole (args : List Byte) : Prop :=
  cmd_makemod true args = none ∨ cmd_makemod true args = (words args)[0]?.bind fun file =>
    (words args)[1]?.map fun type_str => (file, type_str, (words args)[2]?.getD (stem file))

/-- Where the argument string starts with a word, the commands read tokens. -/
theorem cmd_compile_eq (h : words args = w :: ws) {src : List Byte}
    (htoken : (next_token args 32).1 = some src) : cmd_compile true args =
    some (src, (next_token (next_token args 32).2 32).1.getD A_OUT, stem src) := by
  have hne : args ≠ [] := by
    rintro rfl
    cases h
  unfold cmd_compile
  rw [if_neg hne, if_neg (by decide)]
  show (next_token args 32).1.map _ = _
  rw [htoken]
  rfl

theorem cmd_makemod_eq (h : words args = w :: ws) {file : List Byte}
    (htoken : (next_token args 32).1 = some file) : cmd_makemod true args =
    (next_token (next_token args 32).2 32).1.map fun type_str =>
      (file, type_str, (next_token (next_token (next_token args 32).2 32).2 32).1.getD (stem file)) := by
  have hne : args ≠ [] := by
    rintro rfl
    cases h
  unfold cmd_makemod
  rw [if_neg hne, if_neg (by decide)]
  show (next_token args 32).1.bind _ = _
  rw [htoken]
  rfl

theorem compileWhole_iff : CompileWhole args ↔ Short 2 args := by
  unfold CompileWhole
  cases hwords : words args with
  | nil =>
      refine iff_of_true (.inl ?_) (short_nil hwords)
      unfold cmd_compile
      rw [next_token_nil hwords]
      split <;> rfl
  | cons w ws =>
      rw [short_cons hwords]
      rcases Nat.lt_or_ge w.length 32 with hlt | hge
      · obtain ⟨htoken, hws⟩ := next_token_short hwords hlt
        rw [cmd_compile_eq hwords htoken]
        cases ws with
        | nil =>
            rw [next_token_nil hws]
            exact iff_of_true (.inr rfl) ⟨hlt, nofun⟩
        | cons v vs =>
            rw [List.take_succ_cons, List.take_zero, List.forall_mem_singleton, and_iff_right hlt]
            rcases Nat.lt_or_ge v.length 32 with hlt' | hge'
            · rw [(next_token_short hws hlt').1]
              exact iff_of_true (.inr rfl) hlt'
            · rw [(next_token_long hws hge').1]
              refine iff_of_false (fun h => take_ne hge' ?_) (Nat.not_lt.mpr hge')
              have heq := Option.some_inj.mp (h.resolve_left (Option.some_ne_none _))
              exact (Prod.mk.inj (Prod.mk.inj heq).2).1
      · rw [cmd_compile_eq hwords (next_token_long hwords hge).1]
        refine iff_of_false (fun h => take_ne hge ?_) fun h => Nat.not_lt.mpr hge h.1
        have heq := Option.some_inj.mp (h.resolve_left (Option.some_ne_none _))
        exact (Prod.mk.inj heq).1

theorem makemodWhole_iff : MakemodWhole args ↔ Short 3 args := by
  unfold MakemodWhole
  cases hwords : words args with
  | nil =>
      refine iff_of_true (.inl ?_) (short_nil hwords)
      unfold cmd_makemod
      rw [next_token_nil hwords]
      split <;> rfl
  | cons w ws =>
      rw [short_cons hwords]
      rcases Nat.lt_or_ge w.length 32 with hlt | hge
      · obtain ⟨htoken, hws⟩ := next_token_short hwords hlt
        rw [cmd_makemod_eq hwords htoken]
        cases ws with
        | nil =>
            rw [next_token_nil hws]
            exact iff_of_true (.inl rfl) ⟨hlt, nofun⟩
        | cons v vs =>
            rw [List.take_succ_cons, List.forall_mem_cons, and_iff_right hlt]
            rcases Nat.lt_or_ge v.length 32 with hlt' | hge'
            · obtain ⟨htype, hvs⟩ := next_token_short hws hlt'
              rw [htype, and_iff_right hlt']
              cases vs with
              | nil =>
                  rw [next_token_nil hvs]
                  exact iff_of_true (.inr rfl) nofun
              | cons u us =>
                  rw [List.take_succ_cons, List.take_zero, List.forall_mem_singleton]
                  rcases Nat.lt_or_ge u.length 32 with hlt'' | hge''
                  · rw [(next_token_short hvs hlt'').1]
                    exact iff_of_true (.inr rfl) hlt''
                  · rw [(next_token_long hvs hge'').1]
                    refine iff_of_false (fun h => take_ne hge'' ?_) (Nat.not_lt.mpr hge'')
                    have heq := Option.some_inj.mp (h.resolve_left (Option.some_ne_none _))
                    exact (Prod.mk.inj (Prod.mk.inj heq).2).2
            · rw [(next_token_long hws hge').1]
              refine iff_of_false (fun h => take_ne hge' ?_) fun h => Nat.not_lt.mpr hge' h.1
              have heq := Option.some_inj.mp (h.resolve_left (Option.some_ne_none _))
              exact (Prod.mk.inj (Prod.mk.inj heq).2).1
      · -- the rest of the file name is the type
        obtain ⟨htoken, hws⟩ := next_token_long hwords hge
        have htype : ∃ t, (next_token (next_token args 32).2 32).1 = some t := by
          obtain ⟨r, -, -, htoken⟩ := @next_token_eq _ _ 32 _ hws
          exact ⟨_, congrArg Prod.fst htoken⟩
        obtain ⟨t, ht⟩ := htype
        rw [cmd_makemod_eq hwords htoken, ht]
        refine iff_of_false (fun h => take_ne hge ?_) fun h => Nat.not_lt.mpr hge h.1
        have heq := h.resolve_left (Option.some_ne_none _)
        cases ws with
        | nil => cases heq
        | cons v vs => exact (Prod.mk.inj (Option.some_inj.mp heq)).1

/-- **Command arguments.**  However many tokens are read, they are the words of the string exactly if the
words read fit into the buffer; so are the arguments of `compile` and of `makemod`. -/
theorem whole_words_iff (args : List Byte) : (∀ n, Whole n args ↔ Short n args) ∧
    (CompileWhole args ↔ Short 2 args) ∧ (MakemodWhole args ↔ Short 3 args) :=
  ⟨fun _ => whole_iff, compileWhole_iff, makemodWhole_iff⟩

/-- A file name of 33 characters. -/
def longName : List Byte := List.replicate 33 97

/-- Its last two characters are the name of the output. -/
theorem long_name_split : cmd_compile true longName =
    some (List.replicate 31 97, List.replicate 2 97, List.replicate 31 97) ∧
    ¬ ∀ args, (∀ n, Whole n args) ∧ CompileWhole args ∧ MakemodWhole args := by
  refine ⟨by decide, fun h => ?_⟩
  have hwhole := (h longName).1 2
  exact absurd hwhole (by decide)

end Shell

end Eke
