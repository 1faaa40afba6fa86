/-
The places of the tokens in a text.

The lexer goes through a text from left to right and leaves out blanks and comments only.  What
it needs for that is that every literal is closed: `Closed` says so of the characters alone,
without the lexer.  One step of it is `step`: what a token takes is in the text, and what is left
is closed again.  `Covers` is what a run adds up from the steps.
-/
import Eke.Compiler.Lexer
import Mathlib.Data.List.Nodup
import Mathlib.Tactic.Tauto

namespace Eke

namespace Lexer

/-- Every quote that opens a literal is followed by another one of its kind. -/
inductive Closed : Name → Prop
  | nil : Closed []
  | literal {q : Char} {body rest : Name} (hq : q = '"' ∨ q = '\'') (hbody : q ∉ body) (h : Closed rest) :
      Closed (q :: (body ++ q :: rest))
  | comment {cs : Name} (h : Closed (cs.dropWhile (· ≠ '\n'))) : Closed ('/' :: '/' :: cs)
  | char {c : Char} {cs : Name} (hd : c ≠ '"') (hs : c ≠ '\'') (hc : c = '/' → charAt cs 0 ≠ '/')
      (h : Closed cs) : Closed (c :: cs)

variable {c d : Char} {cs code rest text : Name} {f : Char → Bool} {n p line : Nat}

/-! ### What a token takes -/

/-- A character that opens neither a literal nor a comment. -/
def Inner (c : Char) : Prop := c ≠ '"' ∧ c ≠ '\'' ∧ c ≠ '/'

theorem Closed.tail (h : Closed (c :: cs)) (hc : Inner c) : Closed cs := by
  cases h with
  | literal hq hbody h =>
      rcases hq with rfl | rfl
      · exact (hc.1 rfl).elim
      · exact (hc.2.1 rfl).elim
  | comment h => exact (hc.2.2 rfl).elim
  | char hd hs hcomment h => exact h

theorem closed_cons (hc : Inner c) : Closed (c :: cs) ↔ Closed cs :=
  ⟨fun h => h.tail hc, fun h => .char hc.1 hc.2.1 (fun heq => (hc.2.2 heq).elim) h⟩

/-- What holds of a text or of what is behind its first character holds behind a run of such
characters. -/
theorem run_iff {P : Name → Prop} (hcons : ∀ c cs, f c = true → (P (c :: cs) ↔ P cs)) : ∀ code : Name,
    P code ↔ P (code.drop (code.takeWhile f).length)
  | [] => Iff.rfl
  | c :: cs => by
      rw [List.takeWhile_cons]
      split
      · rename_i hc
        exact (hcons c cs hc).trans (run_iff hcons cs)
      · exact Iff.rfl

theorem closed_run (hf : ∀ c, f c = true → Inner c) : ∀ code : Name,
    Closed code ↔ Closed (code.drop (code.takeWhile f).length) :=
  run_iff fun c _ hc => closed_cons (hf c hc)

theorem digit_inner (hc : isdigit c = true) : Inner c :=
  ⟨digit_ne hc (by decide), digit_ne hc (by decide), digit_ne hc (by decide)⟩

theorem isword_inner (hc : isword c = true) : Inner c := by
  unfold isword at hc
  rcases Bool.or_eq_true _ _ ▸ hc with hletter | hdigit
  · exact ⟨letter_ne hletter (by decide), letter_ne hletter (by decide), letter_ne hletter (by decide)⟩
  · exact digit_inner hdigit

/-- The second of two characters that are one token. -/
theorem closed_second (hd : charAt cs 0 = d) (hne : d ≠ '\x00') (hinner : Inner d) :
    2 ≤ (c :: cs).length ∧ (Closed cs ↔ Closed ((c :: cs).drop 2)) := by
  cases cs with
  | nil => exact (hne hd.symm).elim
  | cons e cs =>
      obtain rfl : e = d := hd
      exact ⟨by simp, closed_cons hinner⟩

/-- A literal with its two quotes. -/
theorem literal_at {q : Char} (hq : q = '"' ∨ q = '\'') :
    findlen (q :: cs) = (cs.takeWhile (· ≠ q)).length + 2 := by
  rcases hq with rfl | rfl
  · rfl
  · rfl

theorem literal_drop {q : Char} {body : Name} (hq : q = '"' ∨ q = '\'') (hbody : q ∉ body) :
    findlen (q :: (body ++ q :: rest)) = body.length + 2 := by
  rw [literal_at hq, List.takeWhile_append_of_pos, List.takeWhile_cons, if_neg (by simp), List.append_nil]
  intro d hd
  simpa using fun heq : d = q => hbody (heq ▸ hd)

/-- Other tokens have one character, or two with one of five behind. -/
theorem symbol_at (hd : c ≠ '"') (hs : c ≠ '\'') (hdigit : isdigit c = false)
    (hword : (isalpha c || c == '_') = false) :
    findlen (c :: cs) = 1 ∨ findlen (c :: cs) = 2 ∧ charAt cs 0 ∈ ['>', '=', '+', '-', '<'] := by
  have hfirst : charAt (c :: cs) 0 = c := rfl
  have hsecond : charAt (c :: cs) 1 = charAt cs 0 := rfl
  have hword' : ¬ (isalpha c = true ∨ c = '_') := by simpa using hword
  unfold findlen
  simp only [hfirst, hsecond, if_neg hd, if_neg hs, hdigit, Bool.false_eq_true, if_false, if_neg hword']
  split_ifs with harrow hequal htwice hsingle
  · exact .inr ⟨rfl, by simp [harrow.2]⟩
  · exact .inr ⟨rfl, by simp [hequal.2]⟩
  · refine .inr ⟨rfl, ?_⟩
    rcases htwice with ⟨-, h⟩ | ⟨-, h⟩ | ⟨-, h⟩ | ⟨-, h⟩
    all_goals simp [h]
  · exact .inl rfl
  · exact .inl rfl

/-- A comment ends in front of a line feed. -/
theorem comment_split (hc : c = '/' ∧ charAt cs 0 = '/') : ∃ pre rest,
    rest = (cs.drop 1).dropWhile (· ≠ '\n') ∧ c :: cs = pre ++ rest ∧
      pre.length = 2 + ((cs.drop 1).takeWhile (· ≠ '\n')).length ∧ ∀ d ∈ pre, d ≠ '\n' := by
  cases cs with
  | nil => exact absurd hc.2 (by decide)
  | cons e cs =>
      obtain ⟨rfl, he⟩ := hc
      obtain rfl : e = '/' := he
      refine ⟨'/' :: '/' :: cs.takeWhile (· ≠ '\n'), _, rfl, ?_, ?_, fun d hd => ?_⟩
      · rw [List.cons_append, List.cons_append, List.drop_one, List.tail_cons,
          List.takeWhile_append_dropWhile]
      · rw [List.length_cons, List.length_cons, List.drop_one, List.tail_cons]
        omega
      · simp only [List.mem_cons] at hd
        rcases hd with rfl | rfl | hd
        · decide
        · decide
        · simpa using List.all_eq_true.mp List.all_takeWhile d hd

theorem Closed.over_comment (h : Closed (c :: cs)) (hc : c = '/' ∧ charAt cs 0 = '/') :
    Closed ((cs.drop 1).dropWhile (· ≠ '\n')) := by
  cases h with
  | literal hq _ _ =>
      rcases hq with rfl | rfl
      · exact absurd hc.1 (by decide)
      · exact absurd hc.1 (by decide)
  | char _ _ hcomment _ => exact (hcomment hc.1 hc.2).elim
  | comment h => exact h

/-- A token that is no literal is in the text, and it opens nothing. -/
theorem token_step (hd : c ≠ '"') (hs : c ≠ '\'') (hcomment : ¬ (c = '/' ∧ charAt cs 0 = '/')) :
    0 < findlen (c :: cs) ∧ findlen (c :: cs) ≤ (c :: cs).length ∧
      (Closed (c :: cs) ↔ Closed ((c :: cs).drop (findlen (c :: cs)))) := by
  by_cases hdigit : isdigit c = true
  · rw [(number_at hdigit).1]
    refine ⟨?_, List.takeWhile_sublist _ |>.length_le, closed_run (fun _ => digit_inner) _⟩
    rw [List.takeWhile_cons, if_pos hdigit]
    exact Nat.succ_pos _
  by_cases hword : (isalpha c || c == '_') = true
  · have hw : isword c = true := by
      unfold isword
      rw [hword, Bool.true_or]
    rw [(word_at hword).1]
    refine ⟨?_, List.takeWhile_sublist _ |>.length_le, closed_run (fun _ => isword_inner) _⟩
    rw [List.takeWhile_cons, if_pos hw]
    exact Nat.succ_pos _
  have hfirst : Closed (c :: cs) ↔ Closed cs := by
    constructor
    · intro h
      cases h with
      | literal hq _ _ =>
          rcases hq with rfl | rfl
          · exact (hd rfl).elim
          · exact (hs rfl).elim
      | comment _ => exact (hcomment ⟨rfl, rfl⟩).elim
      | char _ _ _ h => exact h
    · exact fun h => .char hd hs (fun heq hnext => hcomment ⟨heq, hnext⟩) h
  have hsymbol := @symbol_at c cs hd hs (by simpa using hdigit) (by simpa using hword)
  rcases hsymbol with hone | ⟨htwo, hmem⟩
  · rw [hone]
    exact ⟨Nat.one_pos, by simp, hfirst⟩
  · rw [htwo]
    have hplain : ∀ d ∈ ['>', '=', '+', '-', '<'], d ≠ '\x00' ∧ Inner d := by
      simp [Inner]
    obtain ⟨hne, hinner⟩ := hplain _ hmem
    obtain ⟨hlen, hrest⟩ := @closed_second c _ _ rfl hne hinner
    exact ⟨Nat.two_pos, hlen, hfirst.trans hrest⟩

theorem findlen_pos (hcomment : ¬ (c = '/' ∧ charAt cs 0 = '/')) : 0 < findlen (c :: cs) := by
  by_cases hq : c = '"' ∨ c = '\''
  · rw [literal_at hq]
    exact Nat.succ_pos _
  · obtain ⟨hd, hs⟩ := not_or.mp hq
    exact (token_step hd hs hcomment).1

/-- The token in front of a closed text is in the text, and what is behind it is closed. -/
theorem Closed.step (h : Closed (c :: cs)) (hcomment : ¬ (c = '/' ∧ charAt cs 0 = '/')) :
    0 < findlen (c :: cs) ∧ findlen (c :: cs) ≤ (c :: cs).length ∧
      Closed ((c :: cs).drop (findlen (c :: cs))) := by
  cases h with
  | literal hq hbody h =>
      rw [literal_drop hq hbody]
      refine ⟨Nat.succ_pos _, by simp, ?_⟩
      simpa using h
  | comment h => exact (hcomment ⟨rfl, rfl⟩).elim
  | char hd hs hc h =>
      obtain ⟨hpos, hlen, hiff⟩ := token_step hd hs hcomment
      exact ⟨hpos, hlen, hiff.mp (.char hd hs hc h)⟩

/-! ### Places in the text -/

theorem charAt_drop (text : Name) (p i : Nat) : charAt (text.drop p) i = charAt text (p + i) := by
  unfold charAt
  rw [List.getD_eq_getElem?_getD, List.getD_eq_getElem?_getD, List.getElem?_drop]

/-- The characters from `ind` on have the property up to the length, and no longer. -/
def Run (f : Char → Bool) (text : Name) (t : LexToken) : Prop :=
  (∀ i, t.ind ≤ i → i < t.ind + t.len → f (charAt text i) = true) ∧ f (charAt text (t.ind + t.len)) = false

theorem takeWhile_run (hzero : f '\x00' = false) : ∀ code : Name,
    (∀ i, i < (code.takeWhile f).length → f (charAt code i) = true) ∧
      f (charAt code (code.takeWhile f).length) = false
  | [] => ⟨fun i hi => absurd hi (Nat.not_lt_zero i), hzero⟩
  | c :: cs => by
      obtain ⟨hrun, hstop⟩ := takeWhile_run hzero cs
      rw [List.takeWhile_cons]
      split
      · rename_i hc
        refine ⟨fun i hi => ?_, hstop⟩
        cases i with
        | zero => exact hc
        | succ i => exact hrun i (Nat.lt_of_succ_lt_succ hi)
      · rename_i hc
        exact ⟨fun i hi => absurd hi (Nat.not_lt_zero i), Bool.eq_false_iff.mpr hc⟩

theorem run_of_drop (hzero : f '\x00' = false) {ty : Int} (h : text.drop p = code) :
    Run f text ⟨ty, p, (code.takeWhile f).length, line⟩ := by
  obtain ⟨hrun, hstop⟩ := takeWhile_run hzero code
  have hat : ∀ i, charAt code i = charAt text (p + i) := by
    intro i
    rw [← h, charAt_drop]
  refine ⟨fun i hlow hhigh => ?_, ?_⟩
  · have hi := hrun (i - p) (by simp only at hlow hhigh; omega)
    rwa [hat, Nat.add_sub_cancel' hlow] at hi
  · rwa [hat] at hstop

/-! ### Keywords -/

/-- A table of words with different types: a word has a type exactly if it is the word of the type. -/
theorem lookup_iff {ty : Int} {word : Name} {ks : List (Name × Int)} (hwords : (ks.map Prod.fst).Nodup)
    (htypes : (ks.map Prod.snd).Nodup) (hty : ty ∉ ks.map Prod.snd) {k : Name × Int} (hk : k ∈ ks) :
    (ks.lookup word).getD ty = k.2 ↔ word = k.1 := by
  cases hfound : ks.lookup word with
  | none =>
      refine ⟨fun heq => (hty (List.mem_map.mpr ⟨k, hk, heq.symm⟩)).elim, ?_⟩
      rintro rfl
      simpa using List.lookup_eq_none_iff.mp hfound k hk
  | some u =>
      obtain ⟨front, back, hks, -⟩ := List.lookup_eq_some_iff.mp hfound
      have hmem : (word, u) ∈ ks := by
        rw [hks]
        simp
      constructor
      · intro heq
        exact congrArg Prod.fst (List.inj_on_of_nodup_map htypes hmem hk heq)
      · intro heq
        exact congrArg Prod.snd (List.inj_on_of_nodup_map hwords hmem hk heq)

theorem tokenize_iff {word : Name} {k : Name × Int} (hk : k ∈ keywords) :
    tokenize word = k.2 ↔ word = k.1 :=
  lookup_iff (by decide) (by decide) (by decide) hk

theorem tokenize_other {word : Name} (h : ∀ k ∈ keywords, word ≠ k.1) : tokenize word = T_IDENTIFIER := by
  have hnone : keywords.lookup word = none :=
    List.lookup_eq_none_iff.mpr fun k hk => by simpa using h k hk
  unfold tokenize
  rw [hnone]
  rfl

/-- What a token is, by its first character. -/
structure Classified (text : Name) (t : LexToken) : Prop where
  word : isalpha (charAt text t.ind) = true ∨ charAt text t.ind = '_' → Run isword text t ∧
    (∀ k ∈ keywords, t.type = k.2 ↔ gettokenname text t = k.1) ∧
      ((∀ k ∈ keywords, gettokenname text t ≠ k.1) → t.type = T_IDENTIFIER)
  number : isdigit (charAt text t.ind) = true → Run isdigit text t ∧ t.type = T_INT

theorem classified (hdrop : text.drop p = c :: cs) :
    Classified text ⟨typeAt (c :: cs), p, findlen (c :: cs), line⟩ := by
  have hat : charAt text p = c := by
    rw [← Nat.add_zero p, ← charAt_drop, hdrop]
    rfl
  refine ⟨fun hword => ?_, fun hdigit => ?_⟩
  · have hc : (isalpha c || c == '_') = true := by simpa [hat] using hword
    obtain ⟨hlen, htype⟩ := @word_at c cs hc
    have hname : gettokenname text ⟨typeAt (c :: cs), p, findlen (c :: cs), line⟩ =
        (c :: cs).take (findlen (c :: cs)) := by
      unfold gettokenname
      rw [hdrop]
    rw [hname, htype]
    refine ⟨?_, fun k hk => tokenize_iff hk, tokenize_other⟩
    rw [hlen]
    exact run_of_drop (by decide) hdrop
  · obtain ⟨hlen, htype⟩ := @number_at c cs (hat ▸ hdigit)
    refine ⟨?_, htype⟩
    rw [hlen]
    exact run_of_drop (by decide) hdrop

/-! ### Covering -/

/-- No token holds the character at `i`. -/
def Uncovered (ts : List LexToken) (i : Nat) : Prop := ∀ t ∈ ts, ¬ (t.ind ≤ i ∧ i < t.ind + t.len)

def Blank (c : Char) : Prop := c = ' ' ∨ c = '\t' ∨ c = '\r' ∨ c = '\n'

theorem Blank.inner (h : Blank c) : Inner c := by
  rcases h with rfl | rfl | rfl | rfl
  all_goals exact ⟨by decide, by decide, by decide⟩

/-- Two slashes from `p` on, in the same line as `i` and with no token between them and `i`. -/
def InComment (text : Name) (p : Nat) (ts : List LexToken) (i : Nat) : Prop :=
  ∃ j, p ≤ j ∧ j ≤ i ∧ charAt text j = '/' ∧ charAt text (j + 1) = '/' ∧
    ∀ k, j ≤ k → k ≤ i → charAt text k ≠ '\n' ∧ Uncovered ts k

/-- The tokens in front of the end, from the place `p` of the text on. -/
structure Covers (text : Name) (p : Nat) (ts : List LexToken) : Prop where
  sorted : ts.Pairwise fun t u => t.ind + t.len ≤ u.ind
  placed : ∀ t ∈ ts, p ≤ t.ind ∧ 0 < t.len ∧ t.ind + t.len ≤ text.length
  classified : ∀ t ∈ ts, Classified text t
  gaps : ∀ i, p ≤ i → i < text.length → Uncovered ts i → Blank (charAt text i) ∨ InComment text p ts i

variable {ts : List LexToken} {q : Nat}

theorem Covers.done (text : Name) : Covers text text.length [] :=
  ⟨.nil, nofun, nofun, fun _ hlow hhigh _ => absurd hlow (Nat.not_le.mpr hhigh)⟩

theorem Covers.before (h : Covers text q ts) {i : Nat} (hi : i < q) : Uncovered ts i :=
  fun t ht hin => absurd (Nat.le_trans (h.placed t ht).1 hin.1) (Nat.not_le.mpr hi)

/-- What lies in front of the tokens may be left out. -/
theorem Covers.skip (h : Covers text q ts) (hpq : p ≤ q)
    (hgap : ∀ i, p ≤ i → i < q → Blank (charAt text i) ∨ InComment text p ts i) : Covers text p ts where
  sorted := h.sorted
  placed t ht := ⟨Nat.le_trans hpq (h.placed t ht).1, (h.placed t ht).2⟩
  classified := h.classified
  gaps i hlow hhigh hfree := by
    rcases Nat.lt_or_ge i q with hlt | hge
    · exact hgap i hlow hlt
    · rcases h.gaps i hge hhigh hfree with hblank | ⟨j, hj, hrest⟩
      · exact .inl hblank
      · exact .inr ⟨j, Nat.le_trans hpq hj, hrest⟩

theorem Covers.blank (h : Covers text (p + 1) ts) (hblank : Blank (charAt text p)) : Covers text p ts := by
  refine h.skip (Nat.le_succ p) fun i hlow hhigh => .inl ?_
  rwa [show i = p by omega]

theorem Covers.comment (h : Covers text q ts) (hpq : p ≤ q) (hfirst : charAt text p = '/')
    (hsecond : charAt text (p + 1) = '/') (hline : ∀ k, p ≤ k → k < q → charAt text k ≠ '\n') :
    Covers text p ts :=
  h.skip hpq fun _ hlow hhigh => .inr ⟨p, Nat.le_refl p, hlow, hfirst, hsecond, fun k hk hki =>
    ⟨hline k hk (Nat.lt_of_le_of_lt hki hhigh), h.before (Nat.lt_of_le_of_lt hki hhigh)⟩⟩

theorem Covers.token {t : LexToken} (h : Covers text (t.ind + t.len) ts) (hpos : 0 < t.len)
    (hin : t.ind + t.len ≤ text.length) (ht : Classified text t) : Covers text t.ind (t :: ts) where
  sorted := .cons (fun u hu => (h.placed u hu).1) h.sorted
  placed u hu := by
    rcases List.mem_cons.mp hu with rfl | hu
    · exact ⟨Nat.le_refl _, hpos, hin⟩
    · exact ⟨Nat.le_trans (Nat.le_add_right _ _) (h.placed u hu).1, (h.placed u hu).2⟩
  classified u hu := by
    rcases List.mem_cons.mp hu with rfl | hu
    · exact ht
    · exact h.classified u hu
  gaps i hlow hhigh hfree := by
    have hbehind : t.ind + t.len ≤ i :=
      Nat.le_of_not_lt fun hlt => hfree t (List.mem_cons_self ..) ⟨hlow, hlt⟩
    have hrest : Uncovered ts i := fun u hu => hfree u (List.mem_cons_of_mem _ hu)
    rcases h.gaps i hbehind hhigh hrest with hblank | ⟨j, hj, hji, hfirst, hsecond, hall⟩
    · exact .inl hblank
    · refine .inr ⟨j, Nat.le_trans (Nat.le_add_right _ _) hj, hji, hfirst, hsecond, fun k hk hki => ?_⟩
      refine ⟨(hall k hk hki).1, fun u hu => ?_⟩
      rcases List.mem_cons.mp hu with rfl | hu
      · exact fun hin => absurd (Nat.le_trans hj hk) (Nat.not_le.mpr hin.2)
      · exact (hall k hk hki).2 u hu

/-- The tokens of a closed text cover it from any place on. -/
theorem lex_covers : ∀ {n p line : Nat} {code : Name}, Closed code → text.drop p = code → p ≤ text.length →
    code.length < n → ∃ ts line', lex n code p line = some (ts ++ [⟨T_EOF, text.length, 1, line'⟩]) ∧
      Covers text p ts := by
  intro n
  induction n with
  | zero => exact fun _ _ _ hn => absurd hn (Nat.not_lt_zero _)
  | succ n ih =>
      intro p line code hclosed hdrop hp hn
      cases code with
      | nil =>
          have hend : p = text.length := Nat.le_antisymm hp (List.drop_eq_nil_iff.mp hdrop)
          subst hend
          exact ⟨[], line, rfl, .done text⟩
      | cons c cs =>
          have hat : charAt text p = c := by
            rw [← Nat.add_zero p, ← charAt_drop, hdrop]
            rfl
          have hlen : p + (c :: cs).length = text.length := by
            rw [← hdrop, List.length_drop]
            omega
          have hnext : text.drop (p + 1) = cs := by
            rw [← List.drop_drop, hdrop]
            rfl
          have hstep : ∀ line', Blank c → ∃ ts line'', lex n cs (p + 1) line' =
              some (ts ++ [⟨T_EOF, text.length, 1, line''⟩]) ∧ Covers text p ts := by
            intro line' hblank
            obtain ⟨ts, line'', hts, hcovers⟩ := ih (hclosed.tail hblank.inner) hnext
              (by simp only [List.length_cons] at hlen; omega)
              (by simp only [List.length_cons] at hn; omega)
            exact ⟨ts, line'', hts, hcovers.blank (hat ▸ hblank)⟩
          simp only [lex]
          split_ifs with hblank hnewline hcomment hin
          · exact hstep line (by unfold Blank; tauto)
          · exact hstep (line + 1) (by unfold Blank; tauto)
          · have hclosed' := hclosed.over_comment hcomment
            obtain ⟨pre, rest, hrest, hcode, htwo, hpre⟩ := comment_split hcomment
            rw [← hrest] at hclosed'
            have hq : p + (c :: cs).length - rest.length = p + pre.length := by
              rw [hcode, List.length_append]
              omega
            have hdrop' : text.drop (p + pre.length) = rest := by
              rw [← List.drop_drop, hdrop, hcode, List.drop_left]
            rw [← hrest, hq]
            have hbound : p + pre.length ≤ text.length := by
              rw [hcode, List.length_append] at hlen
              omega
            obtain ⟨ts, line', hts, hcovers⟩ := @ih _ line _ hclosed' hdrop' hbound (by
              rw [hcode, List.length_append] at hn
              omega)
            have hline : ∀ k, p ≤ k → k < p + pre.length → charAt text k ≠ '\n' := by
              intro k hk hlt
              obtain ⟨i, rfl⟩ := Nat.exists_eq_add_of_le hk
              have hin : i < pre.length := Nat.lt_of_add_lt_add_left hlt
              have hchar : charAt text (p + i) = pre[i] := by
                rw [← charAt_drop, hdrop, hcode, charAt, List.getD_append _ _ _ _ hin,
                  List.getD_eq_getElem _ _ hin]
              rw [hchar]
              exact hpre _ (List.getElem_mem hin)
            have hsecond : charAt text (p + 1) = '/' := by
              rw [← charAt_drop, hdrop]
              exact hcomment.2
            have hstart : charAt text p = '/' := hat.trans hcomment.1
            exact ⟨ts, line', hts, hcovers.comment (Nat.le_add_right _ _) hstart hsecond hline⟩
          · obtain ⟨hpos, -, hrest⟩ := hclosed.step hcomment
            have hdrop' : text.drop (p + findlen (c :: cs)) = (c :: cs).drop (findlen (c :: cs)) := by
              rw [← List.drop_drop, hdrop]
            obtain ⟨ts, line', hts, hcovers⟩ := @ih _ line _ hrest hdrop' (by omega)
              (by rw [List.length_drop]; omega)
            rw [hts]
            refine ⟨_ :: ts, line', rfl, ?_⟩
            exact Covers.token (t := ⟨typeAt (c :: cs), p, findlen (c :: cs), line⟩) hcovers hpos
              (show p + findlen (c :: cs) ≤ text.length by omega) (classified hdrop)
          · exact absurd (hclosed.step hcomment).2.1 hin

theorem split_at {q : Char} : ∀ {cs : Name}, (cs.takeWhile (· ≠ q)).length < cs.length →
    ∃ body rest, cs = body ++ q :: rest ∧ q ∉ body ∧ (cs.takeWhile (· ≠ q)).length = body.length
  | [], h => absurd h (Nat.not_lt_zero _)
  | c :: cs, h => by
      by_cases hc : c = q
      · subst hc
        exact ⟨[], cs, rfl, List.not_mem_nil, by simp⟩
      · rw [List.takeWhile_cons, if_pos (by simpa using hc)] at h ⊢
        obtain ⟨body, rest, rfl, hbody, hlen⟩ := split_at (Nat.lt_of_succ_lt_succ h)
        refine ⟨c :: body, rest, rfl, ?_, congrArg (· + 1) hlen⟩
        simpa [hbody] using fun heq => hc heq.symm

/-- A literal that ends in the text is closed. -/
theorem closed_literal {q : Char} (hq : q = '"' ∨ q = '\'')
    (hin : (cs.takeWhile (· ≠ q)).length + 2 ≤ (q :: cs).length)
    (h : Closed ((q :: cs).drop ((cs.takeWhile (· ≠ q)).length + 2))) : Closed (q :: cs) := by
  have hlt : (cs.takeWhile (· ≠ q)).length < cs.length := by
    rw [List.length_cons] at hin
    omega
  obtain ⟨body, rest, rfl, hbody, hlen⟩ := split_at hlt
  rw [hlen] at h
  exact .literal hq hbody (by simpa using h)

/-- Only a text with closed literals has tokens. -/
theorem closed_of_lex : ∀ {n p line : Nat} {code : Name} {ts : List LexToken}, lex n code p line = some ts →
    Closed code := by
  intro n
  induction n with
  | zero => exact nofun
  | succ n ih =>
      intro p line code ts h
      cases code with
      | nil => exact .nil
      | cons c cs =>
          simp only [lex] at h
          split_ifs at h with hblank hnewline hcomment hin
          · exact (closed_cons (Blank.inner (by unfold Blank; tauto))).mpr (ih h)
          · exact (closed_cons (Blank.inner (by unfold Blank; tauto))).mpr (ih h)
          · cases cs with
            | nil => exact absurd hcomment.2 (by decide)
            | cons d cs =>
                obtain ⟨rfl, hd⟩ := hcomment
                obtain rfl : d = '/' := hd
                exact .comment (ih h)
          · obtain ⟨ts', hts', -⟩ := Option.map_eq_some_iff.mp h
            have hrest := ih hts'
            by_cases hd : c = '"'
            · subst hd
              exact closed_literal (.inl rfl) hin hrest
            by_cases hs : c = '\''
            · subst hs
              exact closed_literal (.inr rfl) hin hrest
            exact (token_step hd hs hcomment).2.2.mpr hrest

/-- `x = "//"; // y` -/
def literalText : Name := ['x', ' ', '=', ' ', '"', '/', '/', '"', ';', ' ', '/', '/', ' ', 'y']

theorem literalText_closed : Closed literalText := by
  refine .char (by decide) (by decide) nofun (.char (by decide) (by decide) nofun
    (.char (by decide) (by decide) nofun (.char (by decide) (by decide) nofun ?_)))
  refine @Closed.literal '"' ['/', '/'] _ (.inl rfl) (by decide) (.char (by decide) (by decide) nofun
    (.char (by decide) (by decide) nofun (.comment ?_)))
  exact Closed.nil

end Lexer

end Eke
