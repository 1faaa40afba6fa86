/-
Operators by the types of their tokens.

Which pairs of characters are one token is written in `findlen`, which pairs have a type is written
in `typeAt`.  Seven pairs are in both.  Four are in the first only, and a token of these has the
type of its first character.

`Unmerged` reads a text from left to right without the lexer, and says that none of the four stands
where a token starts.  One round of the lexer keeps it (`scan_step`), in both directions, so it holds
of a text exactly if no token is one of the four.
-/
import Eke.Compiler.LexerReads

namespace Eke

namespace Lexer

/-- The pairs with a type of their own. -/
def pairs : List (Name × Int) :=
  [(['-', '>'], T_ARROW), (['<', '='], T_LEQ), (['>', '='], T_GEQ), (['=', '='], T_EQ), (['!', '='], T_NEQ),
    (['+', '+'], T_INC), (['-', '-'], T_DEC)]

/-- The pairs that are one token with the type of its first character. -/
def merged : List Name := [['+', '='], ['-', '='], ['>', '>'], ['<', '<']]

/-- The first character of an operator: no word, number or literal starts with it. -/
def IsOperator (c : Char) : Prop :=
  isalpha c = false ∧ c ≠ '_' ∧ isdigit c = false ∧ c ≠ '"' ∧ c ≠ '\''

/-- Outside of literals and comments, and with the pairs of `pairs` read as wholes, no pair of
`merged` is met. -/
inductive Unmerged : Name → Prop
  | nil : Unmerged []
  | literal {q : Char} {cs : Name} (hq : q = '"' ∨ q = '\'')
      (h : Unmerged ((cs.dropWhile (· ≠ q)).drop 1)) : Unmerged (q :: cs)
  | comment {cs : Name} (h : Unmerged (cs.dropWhile (· ≠ '\n'))) : Unmerged ('/' :: '/' :: cs)
  | pair {c d : Char} {cs : Name} (hpair : [c, d] ∈ pairs.map Prod.fst) (h : Unmerged cs) :
      Unmerged (c :: d :: cs)
  | char {c : Char} {cs : Name} (hquote : ¬ (c = '"' ∨ c = '\''))
      (hcomment : ¬ (c = '/' ∧ charAt cs 0 = '/'))
      (hpair : [c, charAt cs 0] ∉ pairs.map Prod.fst) (hmerged : [c, charAt cs 0] ∉ merged)
      (h : Unmerged cs) : Unmerged (c :: cs)

variable {c d : Char} {cs code text : Name} {ty : Int}

/-! ### The token at an operator -/

/-- The second character of a pair is in the text. -/
theorem pair_tail (h : [c, charAt cs 0] ∈ pairs.map Prod.fst ∨ [c, charAt cs 0] ∈ merged) :
    ∃ rest, cs = charAt cs 0 :: rest := by
  cases cs with
  | nil =>
      have hzero : charAt [] 0 = '\x00' := rfl
      rw [hzero] at h
      simp [pairs, merged] at h
  | cons d rest => exact ⟨rest, rfl⟩

theorem pair_type {name : Name} (h : (name, ty) ∈ pairs) : 256 ≤ ty := by
  have hall : ∀ k ∈ pairs, 256 ≤ k.2 := by
    decide
  exact hall _ h

theorem pairs_apart : ∀ name ∈ pairs.map Prod.fst, name ∉ merged := by
  decide

/-- The three kinds of operators: a pair with a type, a pair without, and a single character. -/
theorem operator_cases (hc : IsOperator c) :
    (∃ ty, ([c, charAt cs 0], ty) ∈ pairs ∧ findlen (c :: cs) = 2 ∧ typeAt (c :: cs) = ty) ∨
      ([c, charAt cs 0] ∈ merged ∧ findlen (c :: cs) = 2 ∧ typeAt (c :: cs) = charType c) ∨
      ([c, charAt cs 0] ∉ pairs.map Prod.fst ∧ [c, charAt cs 0] ∉ merged ∧ findlen (c :: cs) = 1 ∧
        typeAt (c :: cs) = charType c) := by
  obtain ⟨halpha, hline, hdigit, hd, hs⟩ := hc
  have hfirst : charAt (c :: cs) 0 = c := rfl
  have hsecond : charAt (c :: cs) 1 = charAt cs 0 := rfl
  unfold findlen typeAt
  simp only [hfirst, hsecond, if_neg hd, if_neg hs, hdigit, halpha, hline, Bool.false_eq_true, or_self,
    if_false]
  generalize charAt cs 0 = e
  by_cases harrow : c = '-' ∧ e = '>'
  · obtain ⟨rfl, rfl⟩ := harrow
    exact .inl ⟨T_ARROW, by decide, by decide, by decide⟩
  by_cases hequal : (c = '<' ∨ c = '>' ∨ c = '=' ∨ c = '!' ∨ c = '+' ∨ c = '-') ∧ e = '='
  · obtain ⟨rfl | rfl | rfl | rfl | rfl | rfl, rfl⟩ := hequal
    · exact .inl ⟨T_LEQ, by decide, by decide, by decide⟩
    · exact .inl ⟨T_GEQ, by decide, by decide, by decide⟩
    · exact .inl ⟨T_EQ, by decide, by decide, by decide⟩
    · exact .inl ⟨T_NEQ, by decide, by decide, by decide⟩
    · exact .inr (.inl (by decide))
    · exact .inr (.inl (by decide))
  by_cases htwice : c = '+' ∧ e = '+' ∨ c = '-' ∧ e = '-' ∨ c = '>' ∧ e = '>' ∨ c = '<' ∧ e = '<'
  · obtain ⟨rfl, rfl⟩ | ⟨rfl, rfl⟩ | ⟨rfl, rfl⟩ | ⟨rfl, rfl⟩ := htwice
    · exact .inl ⟨T_INC, by decide, by decide, by decide⟩
    · exact .inl ⟨T_DEC, by decide, by decide, by decide⟩
    · exact .inr (.inl (by decide))
    · exact .inr (.inl (by decide))
  refine .inr (.inr ⟨fun h => ?_, fun h => ?_, ?_, ?_⟩)
  · simp only [pairs, List.map_cons, List.map_nil, List.mem_cons, List.cons.injEq, and_true,
      List.not_mem_nil, or_false] at h
    rcases h with h | ⟨h, he⟩ | ⟨h, he⟩ | ⟨h, he⟩ | ⟨h, he⟩ | h | h
    · exact harrow h
    · exact hequal ⟨.inl h, he⟩
    · exact hequal ⟨.inr (.inl h), he⟩
    · exact hequal ⟨.inr (.inr (.inl h)), he⟩
    · exact hequal ⟨.inr (.inr (.inr (.inl h))), he⟩
    · exact htwice (.inl h)
    · exact htwice (.inr (.inl h))
  · simp only [merged, List.mem_cons, List.cons.injEq, and_true, List.not_mem_nil, or_false] at h
    rcases h with ⟨h, he⟩ | ⟨h, he⟩ | h | h
    · exact hequal ⟨.inr (.inr (.inr (.inr (.inl h)))), he⟩
    · exact hequal ⟨.inr (.inr (.inr (.inr (.inr h)))), he⟩
    · exact htwice (.inr (.inr (.inl h)))
    · exact htwice (.inr (.inr (.inr h)))
  · rw [if_neg harrow, if_neg hequal, if_neg htwice, ite_self]
  · have htyped : ¬ ((c = '<' ∨ c = '>' ∨ c = '=' ∨ c = '!') ∧ e = '=') := fun h =>
      hequal ⟨h.1.imp_right (.imp_right (.imp_right .inl)), h.2⟩
    rw [if_neg fun h => htwice (.inl h), if_neg fun h => htwice (.inr (.inl h)), if_neg harrow,
      if_neg htyped]

/-! ### Reading over a token -/

/-- A character that no pair, literal or comment starts with. -/
def Quiet (c : Char) : Prop := c ∉ ['"', '\'', '/', '+', '-', '<', '>', '=', '!']

theorem pair_first {name : Name} (h : name ∈ pairs.map Prod.fst ∨ name ∈ merged) :
    ∀ c ∈ name.head?, c ∈ ['+', '-', '<', '>', '=', '!'] := by
  have hall : ∀ name ∈ pairs.map Prod.fst ++ merged, ∀ c ∈ name.head?,
      c ∈ ['+', '-', '<', '>', '=', '!'] := by
    simp [pairs, merged]
  exact hall name (List.mem_append.mpr h)

theorem Quiet.no_pair (hc : Quiet c) : [c, d] ∉ pairs.map Prod.fst ∧ [c, d] ∉ merged := by
  have hfirst : c ∉ ['+', '-', '<', '>', '=', '!'] := fun h =>
    hc (List.mem_cons_of_mem _ (List.mem_cons_of_mem _ (List.mem_cons_of_mem _ h)))
  exact ⟨fun h => hfirst (pair_first (.inl h) c rfl), fun h => hfirst (pair_first (.inr h) c rfl)⟩

theorem Quiet.opens_nothing (hc : Quiet c) : ¬ (c = '"' ∨ c = '\'') ∧ c ≠ '/' := by
  refine ⟨?_, ?_⟩
  · rintro (rfl | rfl)
    · exact hc (by decide)
    · exact hc (by decide)
  · rintro rfl
    exact hc (by decide)

/-- A character that starts nothing can be left out. -/
theorem unmerged_single (hquote : ¬ (c = '"' ∨ c = '\'')) (hcomment : ¬ (c = '/' ∧ charAt cs 0 = '/'))
    (hpair : [c, charAt cs 0] ∉ pairs.map Prod.fst) (hmerged : [c, charAt cs 0] ∉ merged) :
    Unmerged (c :: cs) ↔ Unmerged cs := by
  constructor
  · intro h
    cases h with
    | literal hq _ => exact (hquote hq).elim
    | comment _ => exact (hcomment ⟨rfl, rfl⟩).elim
    | pair hp _ => exact (hpair hp).elim
    | char _ _ _ _ h => exact h
  · exact .char hquote hcomment hpair hmerged

theorem unmerged_quiet (hc : Quiet c) : Unmerged (c :: cs) ↔ Unmerged cs :=
  unmerged_single hc.opens_nothing.1 (fun h => hc.opens_nothing.2 h.1) hc.no_pair.1 hc.no_pair.2

theorem drop_run (f : Char → Bool) (cs : Name) : cs.drop (cs.takeWhile f).length = cs.dropWhile f := by
  calc cs.drop (cs.takeWhile f).length
      = (cs.takeWhile f ++ cs.dropWhile f).drop (cs.takeWhile f).length := by
        rw [List.takeWhile_append_dropWhile]
    _ = cs.dropWhile f := List.drop_left

theorem unmerged_literal (hq : c = '"' ∨ c = '\'') :
    Unmerged (c :: cs) ↔ Unmerged ((c :: cs).drop (findlen (c :: cs))) := by
  rw [literal_at hq, List.drop_succ_cons, ← List.drop_drop, drop_run]
  constructor
  · intro h
    cases h with
    | literal _ h => exact h
    | comment _ => rcases hq with hq | hq <;> exact absurd hq (by decide)
    | pair hp _ =>
        have hfirst := pair_first (.inl hp) c rfl
        rcases hq with rfl | rfl <;> exact absurd hfirst (by decide)
    | char hquote _ _ _ _ => exact (hquote hq).elim
  · exact .literal hq

theorem unmerged_comment : Unmerged ('/' :: '/' :: cs) ↔ Unmerged (cs.dropWhile (· ≠ '\n')) := by
  constructor
  · intro h
    cases h with
    | literal hq _ => rcases hq with hq | hq <;> exact absurd hq (by decide)
    | comment h => exact h
    | pair hp _ => exact absurd hp (by decide)
    | char _ hcomment _ _ _ => exact (hcomment ⟨rfl, rfl⟩).elim
  · exact .comment

theorem unmerged_pair {name : Name} (hpair : [c, d] ∈ pairs.map Prod.fst) :
    Unmerged (c :: d :: name) ↔ Unmerged name := by
  constructor
  · intro h
    have hfirst := pair_first (.inl hpair) c rfl
    cases h with
    | literal hq _ => rcases hq with rfl | rfl <;> exact absurd hfirst (by decide)
    | comment _ => exact absurd hfirst (by decide)
    | pair _ h => exact h
    | char _ _ hp _ _ => exact (hp hpair).elim
  · exact .pair hpair

theorem not_unmerged (hmerged : [c, charAt cs 0] ∈ merged) : ¬ Unmerged (c :: cs) := by
  intro h
  have hfirst := pair_first (.inr hmerged) c rfl
  cases h with
  | literal hq _ => rcases hq with rfl | rfl <;> exact absurd hfirst (by decide)
  | comment _ => exact absurd hfirst (by decide)
  | pair hp _ => exact pairs_apart _ hp hmerged
  | char _ _ _ hm _ => exact hm hmerged

/-- A token starts with a digit, with that of a word, with a quote, or it is an operator. -/
theorem operator_or :
    isdigit c = true ∨ (isalpha c || c == '_') = true ∨ (c = '"' ∨ c = '\'') ∨ IsOperator c := by
  unfold IsOperator
  by_cases hdigit : isdigit c = true
  · exact .inl hdigit
  by_cases hword : (isalpha c || c == '_') = true
  · exact .inr (.inl hword)
  by_cases hquote : c = '"' ∨ c = '\''
  · exact .inr (.inr (.inl hquote))
  simp only [Bool.or_eq_true, beq_iff_eq, not_or] at hword hquote
  exact .inr (.inr (.inr ⟨by simpa using hword.1, hword.2, by simpa using hdigit, hquote.1, hquote.2⟩))

theorem isword_quiet (hc : isword c = true) : Quiet c := by
  intro hmem
  have hnone : (['"', '\'', '/', '+', '-', '<', '>', '=', '!'].all fun d => !isword d) = true := rfl
  have hnot := List.all_eq_true.mp hnone c hmem
  rw [hc] at hnot
  cases hnot

theorem merged_operator (h : [c, d] ∈ merged) : IsOperator c := by
  rcases @operator_or c with hdigit | hword | hquote | hc
  · exact absurd h (isword_quiet (by simp only [isword, hdigit, Bool.or_true])).no_pair.2
  · exact absurd h (isword_quiet (by simp only [isword, hword, Bool.true_or])).no_pair.2
  · have hfirst := pair_first (.inr h) c rfl
    rcases hquote with rfl | rfl <;> exact absurd hfirst (by decide)
  · exact hc

/-- The token in front: it is none of the four, and none is met behind it. -/
theorem unmerged_token (hcomment : ¬ (c = '/' ∧ charAt cs 0 = '/')) :
    Unmerged (c :: cs) ↔ [c, charAt cs 0] ∉ merged ∧ Unmerged ((c :: cs).drop (findlen (c :: cs))) := by
  have hquiet : ∀ f : Char → Bool, (∀ d, f d = true → isword d = true) → f c = true →
      findlen (c :: cs) = ((c :: cs).takeWhile f).length →
      (Unmerged (c :: cs) ↔ [c, charAt cs 0] ∉ merged ∧ Unmerged ((c :: cs).drop (findlen (c :: cs)))) := by
    intro f hf hc hlen
    rw [hlen, ← run_iff fun d _ hd => unmerged_quiet (isword_quiet (hf d hd))]
    exact (and_iff_right (isword_quiet (hf c hc)).no_pair.2).symm
  rcases @operator_or c with hdigit | hword | hquote | hc
  · exact hquiet isdigit (fun d hd => by simp [isword, hd]) hdigit (number_at hdigit).1
  · exact hquiet isword (fun d hd => hd) (by simp only [isword, hword, Bool.true_or]) (word_at hword).1
  · rw [unmerged_literal hquote]
    refine (and_iff_right fun hmem => ?_).symm
    have hfirst := pair_first (.inr hmem) c rfl
    rcases hquote with rfl | rfl <;> exact absurd hfirst (by decide)
  rcases @operator_cases c cs hc with ⟨ty, hpair, hlen, -⟩ | ⟨hmerged, hlen, -⟩ | ⟨hpair, hmerged, hlen, -⟩
  · have hmem : [c, charAt cs 0] ∈ pairs.map Prod.fst := List.mem_map.mpr ⟨_, hpair, rfl⟩
    obtain ⟨rest, hrest⟩ := pair_tail (.inl hmem)
    rw [hlen, hrest]
    exact (unmerged_pair hmem).trans (and_iff_right (pairs_apart _ hmem)).symm
  · exact ⟨fun h => (not_unmerged hmerged h).elim, fun h => (h.1 hmerged).elim⟩
  · rw [hlen]
    exact (unmerged_single (not_or.mpr ⟨hc.2.2.2.1, hc.2.2.2.2⟩) hcomment hpair hmerged).trans
      (and_iff_right hmerged).symm

/-! ### Types -/

theorem charType_range (h : c.toNat < 256) : charType c < 128 := by
  unfold charType
  split
  · rename_i hlow
    exact Int.ofNat_lt.mpr hlow
  · omega

theorem charType_inj (hc : c.toNat < 256) (hd : d.toNat < 256) (h : charType c = charType d) : c = d := by
  unfold charType at h
  have hnat : c.toNat = d.toNat := by
    split_ifs at h
    all_goals omega
  exact Char.toNat_inj.mp hnat

/-- A type of a pair is that of this pair alone, whatever a token starts with. -/
theorem typed_pair {name : Name} (hk : (name, ty) ∈ pairs) (hbyte : c.toNat < 256)
    (h : typeAt (c :: cs) = ty) : findlen (c :: cs) = 2 ∧ name = [c, charAt cs 0] := by
  have hother : ty ≠ T_INT ∧ ty ≠ T_CHAR ∧ ty ≠ T_IDENTIFIER ∧ ∀ k ∈ keywords, k.2 ≠ ty := by
    have hall : ∀ k ∈ pairs, k.2 ≠ T_INT ∧ k.2 ≠ T_CHAR ∧ k.2 ≠ T_IDENTIFIER ∧
        ∀ j ∈ keywords, j.2 ≠ k.2 := by
      decide
    exact hall _ hk
  obtain ⟨hint, hchar, hname, hwords⟩ := hother
  have hlow := pair_type hk
  rcases @operator_or c with hdigit | hword | hquote | hc
  · exact (hint (h.symm.trans (number_at hdigit).2)).elim
  · rw [(word_at hword).2] at h
    rcases tokenize_mem ((c :: cs).take (findlen (c :: cs))) with htype | ⟨k, hk', htype⟩
    · exact (hname (h.symm.trans htype)).elim
    · exact (hwords k hk' (htype.symm.trans h)).elim
  · rcases hquote with rfl | rfl
    · have htype : typeAt ('"' :: cs) = 34 := rfl
      omega
    · exact (hchar h.symm).elim
  have hsmall := charType_range hbyte
  rcases @operator_cases c cs hc with ⟨ty', hpair, hlen, htype⟩ | ⟨-, -, htype⟩ | ⟨-, -, -, htype⟩
  · obtain rfl : ty' = ty := htype.symm.trans h
    have hnodup : (pairs.map Prod.snd).Nodup := by
      decide
    exact ⟨hlen, congrArg Prod.fst (List.inj_on_of_nodup_map hnodup hk hpair rfl)⟩
  · omega
  · omega

theorem CText.no_zero (htext : CText text) : '\x00' ∉ text := fun h => (htext _ h).1 rfl

theorem CText.byte (htext : CText text) {i : Nat} (hi : i < text.length) : (charAt text i).toNat < 256 := by
  rw [charAt, List.getD_eq_getElem _ _ hi]
  exact (htext _ (List.getElem_mem hi)).2

namespace Reads

open Prog

variable {s s' : Scanner} {t t' : LexToken}

/-! ### Tokens of the loop -/

/-- The states of the scanning loop, also in a text that it runs out of. -/
inductive Scans (text : Name) : Scanner → Prop
  | start : Scans text ⟨0, 1, []⟩
  | round {s s' : Scanner} (h : Scans text s) (hround : round text s = .ok (.inl ()) s') : Scans text s'

/-- A token of a text, but for its end. -/
def Produces (text : Name) (t : LexToken) : Prop := ∃ s, Scans text s ∧ t ∈ s.tokens

/-- The two characters from a place on. -/
def pairAt (text : Name) (i : Nat) : Name := [charAt text i, charAt text (i + 1)]

theorem drop_pair (i : Nat) : pairAt text i = [charAt text i, charAt (text.drop (i + 1)) 0] := by
  rw [charAt_drop]
  rfl

/-- Blanks or a comment are left out, or a token is found.  What is left is unmerged as before, but for
the token. -/
def Advances (text : Name) (s s' : Scanner) : Prop :=
  s'.tokens = s.tokens ∧ (Unmerged (text.drop s.p) ↔ Unmerged (text.drop s'.p)) ∨
    s'.tokens = s.tokens ++
        [⟨Lexer.typeAt (text.drop s.p), s.p, Lexer.findlen (text.drop s.p), s.line⟩] ∧
      (Unmerged (text.drop s.p) ↔ pairAt text s.p ∉ merged ∧ Unmerged (text.drop s'.p))

theorem scan_step (htext : '\x00' ∉ text) (hp : s.p < text.length) :
    ∃ s', round text s = .ok (.inl ()) s' ∧ s.p < s'.p ∧ Advances text s s' := by
  have hround := round_ok htext hp
  have htail : text.drop s.p = charAt text s.p :: text.drop (s.p + 1) := drop_at hp
  have hnext : charAt (text.drop (s.p + 1)) 0 = charAt text (s.p + 1) := charAt_drop text (s.p + 1) 0
  refine ⟨_, hround, ?_⟩
  have hblank : ∀ d ∈ [' ', '\t', '\r', '\n'], charAt text s.p = d →
      (Unmerged (text.drop s.p) ↔ Unmerged (text.drop (s.p + 1))) := by
    intro d hd hat
    rw [htail, hat]
    refine unmerged_quiet ?_
    have hquiet : ([' ', '\t', '\r', '\n'].all fun d =>
        ['"', '\'', '/', '+', '-', '<', '>', '=', '!'].all (· ≠ d)) = true := rfl
    intro hmem
    simpa using List.all_eq_true.mp (List.all_eq_true.mp hquiet d hd) d hmem
  split_ifs with hspace hline hcomment
  · refine ⟨Nat.lt_succ_self _, .inl ⟨rfl, ?_⟩⟩
    rcases hspace with h | h | h
    all_goals exact hblank _ (by simp) h
  · exact ⟨Nat.lt_succ_self _, .inl ⟨rfl, hblank _ (by simp) hline⟩⟩
  · obtain ⟨hfirst, hsecond⟩ := hcomment
    have hlt : s.p + 1 < text.length := by
      refine Nat.lt_of_le_of_ne hp fun heq => ?_
      rw [show s.p + 1 = text.length from heq, charAt_end] at hsecond
      exact absurd hsecond (by decide)
    refine ⟨Nat.lt_add_of_pos_right (Nat.add_pos_left Nat.two_pos _), .inl ⟨rfl, ?_⟩⟩
    show _ ↔ Unmerged (text.drop (s.p + (2 + ((text.drop (s.p + 2)).takeWhile (· ≠ '\n')).length)))
    rw [← Nat.add_assoc, ← List.drop_drop, drop_run, htail, hfirst, drop_at hlt, hsecond]
    exact unmerged_comment
  · have htoken := @unmerged_token (charAt text s.p) (text.drop (s.p + 1)) (by rw [hnext]; exact hcomment)
    have hpos := @findlen_pos (charAt text s.p) (text.drop (s.p + 1)) (by rw [hnext]; exact hcomment)
    rw [← htail] at htoken hpos
    refine ⟨Nat.lt_add_of_pos_right hpos, .inr ⟨rfl, ?_⟩⟩
    rw [drop_pair, htoken, List.drop_drop]

theorem scan_cases (htext : '\x00' ∉ text) (hround : round text s = .ok (.inl ()) s') :
    s.p < text.length ∧ Advances text s s' := by
  rcases Nat.lt_trichotomy s.p text.length with hlt | heq | hgt
  · obtain ⟨u, hu, -, hstep⟩ := scan_step htext hlt
    cases hu.symm.trans hround
    exact ⟨hlt, hstep⟩
  · cases (round_end heq).symm.trans hround
  · cases (round_wild hgt).symm.trans hround

/-- A text is unmerged if the tokens found so far are none of the four and what is left is. -/
theorem Scans.split (htext : '\x00' ∉ text) (h : Scans text s) :
    Unmerged text ↔ (∀ t ∈ s.tokens, pairAt text t.ind ∉ merged) ∧ Unmerged (text.drop s.p) := by
  induction h with
  | start => exact (and_iff_right nofun).symm
  | round hs hround ih =>
      obtain ⟨-, ⟨htokens, hiff⟩ | ⟨htokens, hiff⟩⟩ := scan_cases htext hround
      · rw [ih, htokens, hiff]
      · rw [ih, htokens, hiff, List.forall_mem_append, List.forall_mem_singleton, and_assoc]

theorem Scans.token (htext : '\x00' ∉ text) (h : Scans text s) : ∀ t ∈ s.tokens, t.ind < text.length ∧
    t.type = Lexer.typeAt (text.drop t.ind) ∧ t.len = Lexer.findlen (text.drop t.ind) := by
  induction h with
  | start => exact nofun
  | round hs hround ih =>
      obtain ⟨hlt, ⟨htokens, -⟩ | ⟨htokens, -⟩⟩ := scan_cases htext hround
      · rw [htokens]
        exact ih
      · rw [htokens, List.forall_mem_append, List.forall_mem_singleton]
        exact ⟨ih, hlt, rfl, rfl⟩

/-- The loop goes on to the end of the text or behind it. -/
theorem Scans.ends (htext : '\x00' ∉ text) : ∀ (n : Nat) {s : Scanner}, text.length - s.p < n →
    Scans text s → ∃ u, Scans text u ∧ text.length ≤ u.p
  | 0, _, hn, _ => absurd hn (Nat.not_lt_zero _)
  | n + 1, s, hn, h => by
      rcases Nat.lt_or_ge s.p text.length with hlt | hge
      · obtain ⟨u, hu, hmore, -⟩ := scan_step htext hlt
        exact Scans.ends htext n (by omega) (h.round hu)
      · exact ⟨s, h, hge⟩

/-- In an unmerged text no token is one of the four, and in no other. -/
theorem unmerged_iff (htext : '\x00' ∉ text) :
    Unmerged text ↔ ∀ t, Produces text t → pairAt text t.ind ∉ merged := by
  constructor
  · rintro h t ⟨s, hs, ht⟩
    exact ((hs.split htext).mp h).1 t ht
  · intro h
    obtain ⟨u, hu, hend⟩ := Scans.ends htext (text.length + 1) (Nat.lt_succ_self _) (@Scans.start text)
    refine (hu.split htext).mpr ⟨fun t ht => h t ⟨u, hu, ht⟩, ?_⟩
    rw [List.drop_eq_nil_of_le hend]
    exact .nil

/-- The tokens of a run are those of its loop, and the end if there is one. -/
theorem init_lexer_scans (htext : '\x00' ∉ text) (s : Scanner) : ∃ u, Scans text u ∧
    (init_lexer text s = .wild u ∨
      init_lexer text s = .ok () { u with tokens := u.tokens ++ [⟨T_EOF, u.p, 1, u.line⟩] }) := by
  have hrounds : ∀ n u, Scans text u → text.length - u.p < n → ∃ v, Scans text v ∧
      (cycle n (fun _ : Unit => round text) () u = .wild v ∨
        cycle n (fun _ : Unit => round text) () u = .ok () v) := by
    intro n
    induction n with
    | zero => exact fun u _ hn => absurd hn (Nat.not_lt_zero _)
    | succ n ih =>
        intro u hu hn
        rcases Nat.lt_trichotomy u.p text.length with hlt | heq | hgt
        · obtain ⟨v, hv, hmore, -⟩ := scan_step htext hlt
          rw [cycle_next hv]
          exact ih v (hu.round hv) (by omega)
        · exact ⟨u, hu, .inr (cycle_stop (round_end heq))⟩
        · exact ⟨u, hu, .inl (cycle_wild (round_wild hgt))⟩
  have hlen : text.length - 0 < text.length + 2 := Nat.lt_add_of_pos_right Nat.two_pos
  have hstart : update (fun _ => ⟨0, 1, []⟩) s = .ok () ⟨0, 1, []⟩ := rfl
  obtain ⟨u, hu, hwild | hok⟩ := hrounds (text.length + 2) ⟨0, 1, []⟩ .start hlen
  · exact ⟨u, hu, .inl ((bind_of_ok hstart).trans (bind_of_wild hwild))⟩
  · exact ⟨u, hu, .inr ((bind_of_ok hstart).trans (bind_of_ok hok))⟩

/-! ### Types and spellings -/

/-- The token is told by its type: a type that is a character is the only character of the token, and
no other spelling has the type of a pair. -/
structure Distinguished (text : Name) (t : LexToken) : Prop where
  single : t.type < 256 → t.len = 1 ∧ t.type = charType (charAt text t.ind)
  pair : t.len = 2 → ∀ text' t', CText text' → Produces text' t' → t'.type = t.type →
    gettokenname text' t' = gettokenname text t

/-- Operators and punctuation are told by their types, and no two of them with different spellings have
the same type. -/
def Determines (text : Name) : Prop :=
  (∀ t, Produces text t → IsOperator (charAt text t.ind) → Distinguished text t) ∧
    ∀ t t', Produces text t → Produces text t' → IsOperator (charAt text t.ind) →
      IsOperator (charAt text t'.ind) → t.type = t'.type → gettokenname text t = gettokenname text t'

/-- A token of a text with the character it starts with. -/
theorem Produces.at (htext : CText text) (h : Produces text t) : ∃ cs,
    text.drop t.ind = charAt text t.ind :: cs ∧ (charAt text t.ind).toNat < 256 ∧
      pairAt text t.ind = [charAt text t.ind, charAt cs 0] ∧
      t.type = Lexer.typeAt (charAt text t.ind :: cs) ∧
      t.len = Lexer.findlen (charAt text t.ind :: cs) := by
  obtain ⟨s, hs, ht⟩ := h
  obtain ⟨hlt, htype, hlen⟩ := hs.token htext.no_zero t ht
  have htail := drop_at hlt
  refine ⟨text.drop (t.ind + 1), htail, htext.byte hlt, drop_pair _, ?_, ?_⟩
  · rw [htype, htail]
  · rw [hlen, htail]

theorem Produces.name_one (h : ∃ cs, text.drop t.ind = charAt text t.ind :: cs) (hlen : t.len = 1) :
    gettokenname text t = [charAt text t.ind] := by
  obtain ⟨cs, hdrop⟩ := h
  unfold gettokenname
  rw [hdrop, hlen]
  rfl

theorem Produces.name_two {name : Name} (hdrop : text.drop t.ind = c :: cs) (hlen : t.len = 2)
    (hpair : [c, charAt cs 0] = name) (hmem : name ∈ pairs.map Prod.fst ∨ name ∈ merged) :
    gettokenname text t = name := by
  subst hpair
  obtain ⟨rest, hrest⟩ := pair_tail hmem
  unfold gettokenname
  rw [hdrop, hlen, hrest]
  rfl

/-- An operator that is none of the four is a pair with a type or a character. -/
theorem Produces.operator (htext : CText text) (h : Produces text t) (hop : IsOperator (charAt text t.ind))
    (hmerged : pairAt text t.ind ∉ merged) :
    t.len = 2 ∧ (gettokenname text t, t.type) ∈ pairs ∨
      t.len = 1 ∧ t.type = charType (charAt text t.ind) ∧ gettokenname text t = [charAt text t.ind] := by
  obtain ⟨cs, hdrop, hbyte, hpairAt, htype, hlen⟩ := h.at htext
  rcases @operator_cases _ cs hop with ⟨ty, hpair, htwo, hty⟩ | ⟨hmem, -, -⟩ | ⟨-, -, hone, hty⟩
  · have hname : gettokenname text t = [charAt text t.ind, charAt cs 0] :=
      Produces.name_two hdrop (hlen.trans htwo) rfl (.inl (List.mem_map.mpr ⟨_, hpair, rfl⟩))
    rw [hname, htype, hty]
    exact .inl ⟨hlen.trans htwo, hpair⟩
  · exact (hmerged (hpairAt ▸ hmem)).elim
  · exact .inr ⟨hlen.trans hone, htype.trans hty, Produces.name_one ⟨cs, hdrop⟩ (hlen.trans hone)⟩

/-- Only one spelling has the type of a pair. -/
theorem Produces.typed (htext : CText text) (h : Produces text t) {name : Name}
    (hk : (name, t.type) ∈ pairs) : gettokenname text t = name := by
  obtain ⟨cs, hdrop, hbyte, -, htype, hlen⟩ := h.at htext
  obtain ⟨htwo, rfl⟩ := typed_pair hk hbyte htype.symm
  exact Produces.name_two hdrop (hlen.trans htwo) rfl (.inl (List.mem_map.mpr ⟨_, hk, rfl⟩))

/-- A token that is one of the four is not told by its type. -/
theorem Distinguished.not_merged (htext : CText text) (h : Produces text t)
    (htold : IsOperator (charAt text t.ind) → Distinguished text t) : pairAt text t.ind ∉ merged := by
  intro hmem
  obtain ⟨cs, -, hbyte, hpairAt, htype, hlen⟩ := h.at htext
  rw [hpairAt] at hmem
  have hop := merged_operator hmem
  rcases @operator_cases _ cs hop with ⟨ty, hpair, -, -⟩ | ⟨-, htwo, hty⟩ | ⟨-, hnone, -, -⟩
  · exact pairs_apart _ (List.mem_map.mpr ⟨_, hpair, rfl⟩) hmem
  · have hsmall := charType_range hbyte
    have hone := ((htold hop).single (by rw [htype, hty]; omega)).1
    rw [hlen, htwo] at hone
    cases hone
  · exact hnone hmem

/-- Operators are told by their types in the unmerged texts, and in no others. -/
theorem determines_iff (htext : CText text) : Determines text ↔ Unmerged text := by
  rw [unmerged_iff htext.no_zero]
  constructor
  · rintro ⟨htold, -⟩ t ht
    exact Distinguished.not_merged htext ht (htold t ht)
  · intro hnone
    refine ⟨fun t ht hop => ⟨fun hsmall => ?_, fun hlen text' t' htext' ht' hsame => ?_⟩,
      fun t t' ht ht' hop hop' hsame => ?_⟩
    · rcases ht.operator htext hop (hnone t ht) with ⟨-, hpair⟩ | ⟨hlen, htype, -⟩
      · exact absurd hsmall (Int.not_lt.mpr (pair_type hpair))
      · exact ⟨hlen, htype⟩
    · rcases ht.operator htext hop (hnone t ht) with ⟨-, hpair⟩ | ⟨hone, -⟩
      · exact ht'.typed htext' (hsame ▸ hpair)
      · cases hone.symm.trans hlen
    · rcases ht.operator htext hop (hnone t ht) with ⟨-, hpair⟩ | ⟨-, htype, hname⟩
      · exact (ht'.typed htext (hsame ▸ hpair)).symm
      rcases ht'.operator htext hop' (hnone t' ht') with ⟨-, hpair⟩ | ⟨-, htype', hname'⟩
      · exact ht.typed htext (hsame ▸ hpair)
      obtain ⟨_, -, hbyte, -⟩ := ht.at htext
      obtain ⟨_, -, hbyte', -⟩ := ht'.at htext
      rw [hname, hname', charType_inj hbyte hbyte' (htype.symm.trans (hsame.trans htype'))]

/-- `a->b`, with a pair in front of a character. -/
theorem determines_arrow : Determines ['a', '-', '>', 'b', ';'] ↔ Unmerged ['a', '-', '>', 'b', ';'] :=
  determines_iff (by simp [CText])

/-- `x+=1`: the two characters have the type of the first. -/
theorem assignment_merged : init_lexer ['x', '+', '=', '1'] ⟨0, 1, []⟩ =
    .ok () ⟨4, 1, [⟨T_IDENTIFIER, 0, 1, 1⟩, ⟨'+'.toNat, 1, 2, 1⟩, ⟨T_INT, 3, 1, 1⟩, ⟨T_EOF, 4, 1, 1⟩]⟩ ∧
      ¬ Determines ['x', '+', '=', '1'] := by
  refine ⟨rfl, fun h => ?_⟩
  have hscans : Scans ['x', '+', '=', '1'] ⟨3, 1, [⟨T_IDENTIFIER, 0, 1, 1⟩, ⟨'+'.toNat, 1, 2, 1⟩]⟩ :=
    .round (.round .start rfl) rfl
  have hop : IsOperator '+' := by
    unfold IsOperator
    decide
  have htold := h.1 _ ⟨_, hscans, List.mem_cons_of_mem _ (List.mem_cons_self ..)⟩ hop
  cases (htold.single (by decide)).1

end Reads

end Lexer

end Eke
