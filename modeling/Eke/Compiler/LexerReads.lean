/-
The lexer with every character it looks at.

A character is read from its place in the text, and behind the terminator there is nothing to
read.  As in C, what stands behind `&&` is read only if what is in front of it holds.  A loop goes
on for as long as it may have to in a text of the length, so that its bound is never met.  The
tokens have the room they need.

`init_lexer_reads` says that the lexer of whole texts is what these steps come to: where that one
has no tokens, this one reads behind the terminator.
-/
import Eke.Compiler.TokenSpans
import Eke.Lib.Prog

namespace Eke

namespace Lexer

/-- The variables of the lexer. -/
structure Scanner where
  p : Nat
  line : Nat
  tokens : List LexToken

namespace Reads

open Prog

abbrev L (α : Type) : Type := Prog Scanner α

section

variable (code : Name)

/-- The character at a place of the text, or its terminator. -/
def read (i : Nat) : L Char := if i ≤ code.length then pure (charAt code i) else undefined

/-- `first && code[i] == d` -/
def follows (first : Bool) (i : Nat) (d : Char) : L Bool :=
  if first then do
    let e ← read code i
    pure (decide (e = d))
  else pure false

/-- How many more characters from `i + l` on have a property, and `l`. -/
def span (f : Char → Bool) (i l : Nat) : L Nat :=
  cycle (code.length + 2) (fun l => do
    let e ← read code (i + l)
    pure (if f e then .inl (l + 1) else .inr l)) l

def findlen (i : Nat) : L Nat := do
  let c ← read code i
  if ← follows code (c = '-') (i + 1) '>' then pure 2
  else if ← follows code (c = '<' ∨ c = '>' ∨ c = '=' ∨ c = '!' ∨ c = '+' ∨ c = '-') (i + 1) '=' then pure 2
  else if ← follows code (c = '+') (i + 1) '+' then pure 2
  else if ← follows code (c = '-') (i + 1) '-' then pure 2
  else if ← follows code (c = '>') (i + 1) '>' then pure 2
  else if ← follows code (c = '<') (i + 1) '<' then pure 2
  else if c = '(' ∨ c = ')' ∨ c = '{' ∨ c = '}' ∨ c = ';' then pure 1
  else if c = '"' then do
    let l ← span code (fun e => e ≠ '"' ∧ e ≠ '\x00') i 1
    pure (l + 1)
  else if c = '\'' then do
    let l ← span code (fun e => e ≠ '\'' ∧ e ≠ '\x00') i 1
    pure (l + 1)
  else if isdigit c then span code isdigit i 0
  else if isalpha c ∨ c = '_' then span code isword i 0
  else pure 1

def checknum (i l : Nat) : L Bool := do
  let j ← cycle (code.length + 2) (fun j => if j ≤ l then do
      let e ← read code (i + j)
      pure (if isdigit e then .inl (j + 1) else .inr j)
    else pure (.inr j)) 0
  pure (decide (j > l))

/-- The characters from `i` on are those of a word, up to the first that is not. -/
def spells (i : Nat) : Name → L Bool
  | [] => pure true
  | d :: word => do
      let e ← read code i
      if e = d then spells (i + 1) word else pure false

/-- The type of the first of some words that is read. -/
def firstSpelt (i : Nat) : List (Name × Int) → L Int
  | [] => pure T_IDENTIFIER
  | k :: ks => do
      if ← spells code i k.1 then pure k.2 else firstSpelt i ks

/-- The type of a word: it is compared with the keywords of its length. -/
def tokenize (i l : Nat) : L Int := firstSpelt code i (keywords.filter fun k => k.1.length = l)

/-- The type of the token at `p`. -/
def typeAt (p l : Nat) : L Int := do
  let c ← read code p
  if ← follows code (c = '+') (p + 1) '+' then pure T_INC
  else if ← follows code (c = '-') (p + 1) '-' then pure T_DEC
  else if ← follows code (c = '-') (p + 1) '>' then pure T_ARROW
  else if isdigit c then do
    let _ ← checknum code p l
    pure T_INT
  else if ← follows code (c = '<' ∨ c = '>' ∨ c = '=' ∨ c = '!') (p + 1) '=' then
    pure (if c = '<' then T_LEQ else if c = '>' then T_GEQ else if c = '=' then T_EQ else T_NEQ)
  else if isalpha c ∨ c = '_' then tokenize code p l
  else if c = '\'' then pure T_CHAR
  else pure (charType c)

def pushToken (type : Int) (ind len line : Nat) : L Unit :=
  update fun s => { s with tokens := s.tokens ++ [⟨type, ind, len, line⟩] }

/-- A round of the loop. -/
def round : L (Unit ⊕ Unit) := do
  let s ← gets id
  let c ← read code s.p
  if c = '\x00' then pure (.inr ())
  else if c = ' ' ∨ c = '\t' ∨ c = '\r' then do
    update fun s => { s with p := s.p + 1 }
    pure (.inl ())
  else if c = '\n' then do
    update fun s => { s with p := s.p + 1, line := s.line + 1 }
    pure (.inl ())
  else if ← follows code (c = '/') (s.p + 1) '/' then do
    let l ← span code (fun e => e ≠ '\n' ∧ e ≠ '\x00') s.p 2
    update fun s => { s with p := s.p + l }
    pure (.inl ())
  else do
    let l ← findlen code s.p
    let type ← typeAt code s.p l
    pushToken type s.p l s.line
    update fun s => { s with p := s.p + l }
    pure (.inl ())

def init_lexer : L Unit := do
  update fun _ => ⟨0, 1, []⟩
  cycle (code.length + 2) (fun _ => round code) ()
  let s ← gets id
  pushToken T_EOF s.p 1 s.line

end

/-! ### Reading in the text -/

variable {text : Name} {s : Scanner} {i l p : Nat} {c d : Char} {cs : Name}

theorem read_ok (hi : i ≤ text.length) : read text i s = .ok (charAt text i) s := by
  unfold read
  rw [if_pos hi]
  rfl

theorem follows_ok (b : Bool) (hi : i ≤ text.length) :
    follows text b i d s = .ok (b && decide (charAt text i = d)) s := by
  cases b with
  | false => rfl
  | true => exact (bind_of_ok (read_ok hi)).trans rfl

/-- The two ways on behind a test. -/
theorem if_follows {α : Type} (b : Bool) (hi : i ≤ text.length) (x y : L α) :
    (follows text b i d >>= fun r => if r = true then x else y) s =
      if b = true ∧ charAt text i = d then x s else y s := by
  refine (bind_of_ok (follows_ok b hi)).trans ?_
  simp only [Bool.and_eq_true, decide_eq_true_eq]
  split
  · rfl
  · rfl

theorem drop_at (hi : i < text.length) : text.drop i = charAt text i :: text.drop (i + 1) := by
  rw [List.drop_eq_getElem_cons hi, charAt, List.getD_eq_getElem _ _ hi]

theorem charAt_end (text : Name) : charAt text text.length = '\x00' := by
  unfold charAt
  rw [List.getD_eq_default]
  exact Nat.le_refl _

theorem span_cycle {f : Char → Bool} (hzero : f '\x00' = false) : ∀ {n l : Nat}, i + l ≤ text.length →
    text.length < n + (i + l) → cycle n (fun l => do
      let e ← read text (i + l)
      pure (if f e then .inl (l + 1) else .inr l) : Nat → L (Nat ⊕ Nat)) l s =
        .ok (l + ((text.drop (i + l)).takeWhile f).length) s := by
  intro n
  induction n with
  | zero =>
      intro l hl hn
      omega
  | succ n ih =>
      intro l hl hn
      have hround := bind_of_ok
        (k := fun e => (pure (if f e then .inl (l + 1) else .inr l) : L (Nat ⊕ Nat)))
        (read_ok (s := s) hl)
      by_cases hf : f (charAt text (i + l)) = true
      · rw [if_pos hf] at hround
        have hlt : i + l < text.length := by
          refine Nat.lt_of_le_of_ne hl fun heq => ?_
          rw [heq, charAt_end, hzero] at hf
          cases hf
        rw [cycle_next hround, ih (by omega) (by omega), drop_at hlt, List.takeWhile_cons, if_pos hf,
          List.length_cons, Nat.add_assoc i l 1]
        congr 1
        omega
      · rw [if_neg hf] at hround
        rw [cycle_stop hround]
        rcases Nat.lt_or_ge (i + l) text.length with hlt | hge
        · rw [drop_at hlt, List.takeWhile_cons, if_neg hf]
          rfl
        · rw [List.drop_eq_nil_of_le hge]
          rfl

theorem span_ok {f : Char → Bool} (hzero : f '\x00' = false) (hl : i + l ≤ text.length) :
    span text f i l s = .ok (l + ((text.drop (i + l)).takeWhile f).length) s :=
  span_cycle hzero hl (by omega)

theorem takeWhile_same {f g : Char → Bool} : ∀ {cs : Name}, (∀ e ∈ cs, f e = g e) →
    cs.takeWhile f = cs.takeWhile g
  | [], _ => rfl
  | c :: cs, h => by
      rw [List.takeWhile_cons, List.takeWhile_cons, h c (List.mem_cons_self ..),
        takeWhile_same fun e he => h e (List.mem_cons_of_mem c he)]

/-- The terminator is not met in front of the end of a text. -/
theorem takeWhile_text (q : Char) (htext : '\x00' ∉ text) (i : Nat) :
    (text.drop i).takeWhile (fun e => decide (e ≠ q ∧ e ≠ '\x00')) = (text.drop i).takeWhile (· ≠ q) := by
  refine takeWhile_same fun e he => ?_
  have hne : e ≠ '\x00' := fun heq => htext (heq ▸ List.mem_of_mem_drop he)
  simp [hne]

/-- A text is searched for a quote. -/
theorem span_quote (q : Char) (htext : '\x00' ∉ text) (hi : i < text.length) :
    (span text (fun e => e ≠ q ∧ e ≠ '\x00') i 1 >>= fun l => pure (l + 1)) s =
      .ok (((text.drop (i + 1)).takeWhile (· ≠ q)).length + 2) s := by
  refine (bind_of_ok (span_ok (by simp) hi)).trans ?_
  rw [takeWhile_text q htext]
  exact congrArg (fun l => Out.ok l s) (by omega)

theorem findlen_ok (htext : '\x00' ∉ text) (hi : i < text.length) :
    findlen text i s = .ok (Lexer.findlen (text.drop i)) s := by
  have hfirst : charAt (text.drop i) 0 = charAt text i := charAt_drop text i 0
  have hsecond : charAt (text.drop i) 1 = charAt text (i + 1) := charAt_drop text i 1
  refine (bind_of_ok (read_ok (Nat.le_of_lt hi))).trans ?_
  unfold Lexer.findlen
  simp only [hfirst, hsecond, if_follows _ hi, decide_eq_true_eq]
  by_cases harrow : charAt text i = '-' ∧ charAt text (i + 1) = '>'
  · rw [if_pos harrow, if_pos harrow]
    rfl
  rw [if_neg harrow, if_neg harrow]
  by_cases hequal : (charAt text i = '<' ∨ charAt text i = '>' ∨ charAt text i = '=' ∨ charAt text i = '!' ∨
      charAt text i = '+' ∨ charAt text i = '-') ∧ charAt text (i + 1) = '='
  · rw [if_pos hequal, if_pos hequal]
    rfl
  rw [if_neg hequal, if_neg hequal]
  by_cases hinc : charAt text i = '+' ∧ charAt text (i + 1) = '+'
  · rw [if_pos hinc, if_pos (.inl hinc)]
    rfl
  rw [if_neg hinc]
  by_cases hdec : charAt text i = '-' ∧ charAt text (i + 1) = '-'
  · rw [if_pos hdec, if_pos (.inr (.inl hdec))]
    rfl
  rw [if_neg hdec]
  by_cases hright : charAt text i = '>' ∧ charAt text (i + 1) = '>'
  · rw [if_pos hright, if_pos (.inr (.inr (.inl hright)))]
    rfl
  rw [if_neg hright]
  by_cases hleft : charAt text i = '<' ∧ charAt text (i + 1) = '<'
  · rw [if_pos hleft, if_pos (.inr (.inr (.inr hleft)))]
    rfl
  rw [if_neg hleft, if_neg (not_or.mpr ⟨hinc, not_or.mpr ⟨hdec, not_or.mpr ⟨hright, hleft⟩⟩⟩)]
  by_cases hsingle : charAt text i = '(' ∨ charAt text i = ')' ∨ charAt text i = '{' ∨ charAt text i = '}' ∨
      charAt text i = ';'
  · rw [if_pos hsingle, if_pos hsingle]
    rfl
  rw [if_neg hsingle, if_neg hsingle]
  by_cases hd : charAt text i = '"'
  · rw [if_pos hd, if_pos hd, List.drop_drop]
    exact span_quote '"' htext hi
  rw [if_neg hd, if_neg hd]
  by_cases hs : charAt text i = '\''
  · rw [if_pos hs, if_pos hs, List.drop_drop]
    exact span_quote '\'' htext hi
  rw [if_neg hs, if_neg hs]
  by_cases hdigit : isdigit (charAt text i) = true
  · rw [if_pos hdigit, if_pos hdigit, span_ok (by decide) (Nat.le_of_lt hi), Nat.zero_add, Nat.add_zero]
  rw [if_neg hdigit, if_neg hdigit]
  by_cases hword : isalpha (charAt text i) = true ∨ charAt text i = '_'
  · rw [if_pos hword, if_pos hword, span_ok (by decide) (Nat.le_of_lt hi), Nat.zero_add, Nat.add_zero]
  rw [if_neg hword, if_neg hword]
  rfl

/-! ### The type of a token -/

theorem checknum_ok (hl : i + l ≤ text.length) : ∃ b, checknum text i l s = .ok b s := by
  have hloop : ∀ n j, j ≤ l + 1 → l + 1 < n + j → ∃ j', cycle n (fun j => if j ≤ l then do
      let e ← read text (i + j)
      pure (if isdigit e then .inl (j + 1) else .inr j)
    else pure (.inr j) : Nat → L (Nat ⊕ Nat)) j s = .ok j' s := by
    intro n
    induction n with
    | zero =>
        intro j hj hn
        omega
    | succ n ih =>
        intro j hj hn
        by_cases hle : j ≤ l
        · have hround := bind_of_ok (k := fun e =>
            (pure (if isdigit e then .inl (j + 1) else .inr j) : L (Nat ⊕ Nat)))
            (read_ok (s := s) (show i + j ≤ text.length by omega))
          by_cases hdigit : isdigit (charAt text (i + j)) = true
          · rw [if_pos hdigit] at hround
            obtain ⟨j', hj'⟩ := ih (j + 1) (by omega) (by omega)
            refine ⟨j', (cycle_next ?_).trans hj'⟩
            rw [if_pos hle]
            exact hround
          · rw [if_neg hdigit] at hround
            refine ⟨j, cycle_stop ?_⟩
            rw [if_pos hle]
            exact hround
        · refine ⟨j, cycle_stop ?_⟩
          rw [if_neg hle]
          rfl
  obtain ⟨j, hj⟩ := hloop (text.length + 2) 0 (Nat.zero_le _) (by omega)
  exact ⟨decide (j > l), bind_of_ok hj⟩

theorem spells_ok : ∀ {i : Nat} {word : Name}, i + word.length ≤ text.length →
    spells text i word s = .ok (decide ((text.drop i).take word.length = word)) s
  | i, [], _ => by simp [spells, pure, Prog.pure]
  | i, d :: word, h => by
      rw [List.length_cons] at h
      have hi : i < text.length := by omega
      rw [spells]
      refine (bind_of_ok (read_ok (Nat.le_of_lt hi))).trans ?_
      rw [drop_at hi, List.length_cons, List.take_succ_cons]
      by_cases hd : charAt text i = d
      · rw [if_pos hd, spells_ok (by omega)]
        simp [hd]
      · rw [if_neg hd]
        simp [hd, pure, Prog.pure]

/-- The first word that is spelt is the one the table has. -/
theorem firstSpelt_ok (hl : i + l ≤ text.length) : ∀ {ks : List (Name × Int)}, (∀ k ∈ ks, k.1.length = l) →
    firstSpelt text i ks s = .ok ((ks.lookup ((text.drop i).take l)).getD T_IDENTIFIER) s
  | [], _ => rfl
  | k :: ks, h => by
      have hk : k.1.length = l := h k (List.mem_cons_self ..)
      rw [firstSpelt]
      refine (bind_of_ok (spells_ok (by rw [hk]; exact hl))).trans ?_
      rw [hk, List.lookup_cons]
      by_cases heq : (text.drop i).take l = k.1
      · rw [if_pos (decide_eq_true heq), heq, beq_self_eq_true]
        rfl
      · rw [if_neg (by simpa using heq), beq_eq_false_iff_ne.mpr heq]
        exact firstSpelt_ok hl fun j hj => h j (List.mem_cons_of_mem k hj)

/-- A word is looked up among those of its length. -/
theorem lookup_filter {word : Name} : ∀ ks : List (Name × Int),
    (ks.filter fun k => k.1.length = word.length).lookup word = ks.lookup word
  | [] => rfl
  | k :: ks => by
      rw [List.filter_cons, List.lookup_cons]
      by_cases hk : k.1.length = word.length
      · rw [if_pos (by simpa using hk), List.lookup_cons, lookup_filter ks]
      · have hne : (word == k.1) = false := beq_eq_false_iff_ne.mpr fun heq => hk (heq ▸ rfl)
        rw [if_neg (by simpa using hk), hne, lookup_filter ks]

theorem tokenize_ok (hl : i + l ≤ text.length) :
    tokenize text i l s = .ok (Lexer.tokenize ((text.drop i).take l)) s := by
  have hlen : ((text.drop i).take l).length = l := by
    rw [List.length_take, List.length_drop]
    omega
  have hall : ∀ k ∈ keywords.filter fun k => k.1.length = l, k.1.length = l := fun k hk => by
    simpa using (List.mem_filter.mp hk).2
  have hlookup := @lookup_filter ((text.drop i).take l) keywords
  rw [hlen] at hlookup
  unfold tokenize Lexer.tokenize
  rw [firstSpelt_ok hl hall, hlookup]

/-- A run of characters from a place on ends in the text. -/
theorem run_in (f : Char → Bool) (hi : i ≤ text.length) :
    i + ((text.drop i).takeWhile f).length ≤ text.length := by
  have hle : ((text.drop i).takeWhile f).length ≤ (text.drop i).length :=
    (List.takeWhile_sublist f).length_le
  rw [List.length_drop] at hle
  omega

theorem typeAt_ok (hp : p < text.length) :
    typeAt text p (Lexer.findlen (text.drop p)) s = .ok (Lexer.typeAt (text.drop p)) s := by
  have hfirst : charAt (text.drop p) 0 = charAt text p := charAt_drop text p 0
  have hsecond : charAt (text.drop p) 1 = charAt text (p + 1) := charAt_drop text p 1
  refine (bind_of_ok (read_ok (Nat.le_of_lt hp))).trans ?_
  unfold Lexer.typeAt
  simp only [hfirst, hsecond, if_follows _ hp, decide_eq_true_eq]
  by_cases hinc : charAt text p = '+' ∧ charAt text (p + 1) = '+'
  · rw [if_pos hinc, if_pos hinc]
    rfl
  rw [if_neg hinc, if_neg hinc]
  by_cases hdec : charAt text p = '-' ∧ charAt text (p + 1) = '-'
  · rw [if_pos hdec, if_pos hdec]
    rfl
  rw [if_neg hdec, if_neg hdec]
  by_cases harrow : charAt text p = '-' ∧ charAt text (p + 1) = '>'
  · rw [if_pos harrow, if_pos harrow]
    rfl
  rw [if_neg harrow, if_neg harrow]
  by_cases hdigit : isdigit (charAt text p) = true
  · rw [if_pos hdigit, if_pos hdigit]
    rw [drop_at hp, (number_at hdigit).1, ← drop_at hp]
    obtain ⟨b, hb⟩ := checknum_ok (s := s) (run_in isdigit (Nat.le_of_lt hp))
    exact bind_of_ok hb
  rw [if_neg hdigit, if_neg hdigit]
  simp only [if_follows _ hp, decide_eq_true_eq]
  by_cases hequal : (charAt text p = '<' ∨ charAt text p = '>' ∨ charAt text p = '=' ∨
      charAt text p = '!') ∧ charAt text (p + 1) = '='
  · rw [if_pos hequal, if_pos hequal]
    rfl
  rw [if_neg hequal, if_neg hequal]
  by_cases hword : isalpha (charAt text p) = true ∨ charAt text p = '_'
  · rw [if_pos hword, if_pos hword]
    refine tokenize_ok ?_
    rw [drop_at hp, (word_at (by simpa using hword)).1, ← drop_at hp]
    exact run_in isword (Nat.le_of_lt hp)
  rw [if_neg hword, if_neg hword]
  by_cases hquote : charAt text p = '\''
  · rw [if_pos hquote, if_pos hquote]
    rfl
  rw [if_neg hquote, if_neg hquote]
  rfl

/-! ### Rounds of the loop -/

variable {n m line : Nat} {ts : List LexToken}

theorem round_end (hp : s.p = text.length) : round text s = .ok (.inr ()) s := by
  unfold round
  simp only [bind_gets, id_eq]
  refine (bind_of_ok (read_ok (Nat.le_of_eq hp))).trans ?_
  rw [if_pos (by rw [hp, charAt_end])]
  rfl

/-- Behind the terminator nothing can be read. -/
theorem round_wild (hp : text.length < s.p) : round text s = .wild s := by
  unfold round
  simp only [bind_gets, id_eq]
  refine bind_of_wild ?_
  unfold read
  rw [if_neg (Nat.not_le.mpr hp)]
  rfl

/-- A round in the text: blanks, comments and tokens. -/
theorem round_ok (htext : '\x00' ∉ text) (hp : s.p < text.length) : round text s = .ok (.inl ())
    (if charAt text s.p = ' ' ∨ charAt text s.p = '\t' ∨ charAt text s.p = '\r' then
      { s with p := s.p + 1 }
    else if charAt text s.p = '\n' then { s with p := s.p + 1, line := s.line + 1 }
    else if charAt text s.p = '/' ∧ charAt text (s.p + 1) = '/' then
      { s with p := s.p + (2 + ((text.drop (s.p + 2)).takeWhile (· ≠ '\n')).length) }
    else
      { s with p := s.p + Lexer.findlen (text.drop s.p)
               tokens := s.tokens ++
                [⟨Lexer.typeAt (text.drop s.p), s.p, Lexer.findlen (text.drop s.p), s.line⟩] }) := by
  have hzero : charAt text s.p ≠ '\x00' := by
    intro hzero
    rw [charAt, List.getD_eq_getElem _ _ hp] at hzero
    exact htext (hzero ▸ List.getElem_mem hp)
  unfold round
  simp only [bind_gets, id_eq]
  refine (bind_of_ok (read_ok (Nat.le_of_lt hp))).trans ?_
  rw [if_neg hzero]
  by_cases hblank : charAt text s.p = ' ' ∨ charAt text s.p = '\t' ∨ charAt text s.p = '\r'
  · rw [if_pos hblank, if_pos hblank]
    rfl
  rw [if_neg hblank, if_neg hblank]
  by_cases hline : charAt text s.p = '\n'
  · rw [if_pos hline, if_pos hline]
    rfl
  rw [if_neg hline, if_neg hline]
  simp only [if_follows _ hp, decide_eq_true_eq]
  by_cases hcomment : charAt text s.p = '/' ∧ charAt text (s.p + 1) = '/'
  · rw [if_pos hcomment, if_pos hcomment]
    have htwo : s.p + 2 ≤ text.length := by
      refine Nat.lt_of_le_of_ne hp fun heq => ?_
      have hsecond := hcomment.2
      rw [heq, charAt_end] at hsecond
      exact absurd hsecond (by decide)
    refine (bind_of_ok (span_ok (by simp) htwo)).trans ?_
    rw [takeWhile_text '\n' htext]
    rfl
  · rw [if_neg hcomment, if_neg hcomment]
    refine (bind_of_ok (findlen_ok htext hp)).trans ((bind_of_ok (typeAt_ok hp)).trans ?_)
    rfl

theorem cycle_wild {s' : Scanner} (h : round text s = .wild s') :
    cycle (n + 1) (fun _ : Unit => round text) () s = .wild s' :=
  bind_of_wild h

/-- The rounds come to the tokens of the text from a place on, or to a place behind its end. -/
theorem rounds_ok (htext : '\x00' ∉ text) : ∀ {n : Nat} {s : Scanner}, s.p ≤ text.length →
    (text.drop s.p).length < n →
      (∀ ts, lex n (text.drop s.p) s.p s.line = some ts →
        ∃ s', cycle (n + 1) (fun _ : Unit => round text) () s = .ok () s' ∧
          s'.tokens ++ [⟨T_EOF, s'.p, 1, s'.line⟩] = s.tokens ++ ts) ∧
      (lex n (text.drop s.p) s.p s.line = none →
        ∃ s', cycle (n + 1) (fun _ : Unit => round text) () s = .wild s') := by
  intro n
  induction n with
  | zero => exact fun _ hn => absurd hn (Nat.not_lt_zero _)
  | succ n ih =>
      intro s hp hn
      rcases Nat.lt_or_ge s.p text.length with hlt | hge
      case inr =>
        have hend : s.p = text.length := Nat.le_antisymm hp hge
        rw [List.drop_eq_nil_of_le hge]
        refine ⟨fun ts hts => ⟨s, cycle_stop (round_end hend), ?_⟩, fun hnone => by cases hnone⟩
        obtain rfl := Option.some.inj hts
        rfl
      have hround := round_ok htext hlt
      have hlen : (text.drop s.p).length = text.length - s.p := List.length_drop
      have hgo : ∀ {s₁ : Scanner}, round text s = .ok (.inl ()) s₁ → s.p < s₁.p → s₁.p ≤ text.length →
          (∀ ts, lex n (text.drop s₁.p) s₁.p s₁.line = some ts →
            ∃ s', cycle (n + 2) (fun _ : Unit => round text) () s = .ok () s' ∧
              s'.tokens ++ [⟨T_EOF, s'.p, 1, s'.line⟩] = s₁.tokens ++ ts) ∧
          (lex n (text.drop s₁.p) s₁.p s₁.line = none →
            ∃ s', cycle (n + 2) (fun _ : Unit => round text) () s = .wild s') := by
        intro s₁ h₁ hmore hin
        rw [cycle_next h₁]
        exact ih hin (by rw [List.length_drop]; omega)
      have htail : text.drop s.p = charAt text s.p :: text.drop (s.p + 1) := drop_at hlt
      have hnext : charAt (text.drop (s.p + 1)) 0 = charAt text (s.p + 1) := charAt_drop text (s.p + 1) 0
      rw [htail] at hlen ⊢
      simp only [lex, hnext]
      by_cases hblank : charAt text s.p = ' ' ∨ charAt text s.p = '\t' ∨ charAt text s.p = '\r'
      · rw [if_pos hblank] at hround
        simp only [if_pos hblank]
        exact hgo hround (Nat.lt_succ_self _) hlt
      simp only [if_neg hblank] at hround ⊢
      by_cases hline : charAt text s.p = '\n'
      · rw [if_pos hline] at hround
        simp only [if_pos hline]
        exact hgo hround (Nat.lt_succ_self _) hlt
      simp only [if_neg hline] at hround ⊢
      by_cases hcomment : charAt text s.p = '/' ∧ charAt text (s.p + 1) = '/'
      · rw [if_pos hcomment] at hround
        simp only [if_pos hcomment]
        obtain ⟨pre, rest, hrest, hcode, hpre, -⟩ :=
          @comment_split (charAt text s.p) (text.drop (s.p + 1)) (by rw [hnext]; exact hcomment)
        rw [List.drop_drop] at hpre
        have hdrop : text.drop (s.p + pre.length) = rest := by
          rw [← List.drop_drop, htail, hcode, List.drop_left]
        have hq : s.p + (charAt text s.p :: text.drop (s.p + 1)).length - rest.length =
            s.p + pre.length := by
          rw [hcode, List.length_append]
          omega
        rw [hcode, List.length_append] at hlen
        rw [← hpre] at hround
        rw [← hrest, hq, ← hdrop]
        exact hgo hround (show s.p < s.p + pre.length by omega)
          (show s.p + pre.length ≤ text.length by omega)
      simp only [if_neg hcomment] at hround ⊢
      rw [htail] at hround
      by_cases hin : Lexer.findlen (charAt text s.p :: text.drop (s.p + 1)) ≤
          (charAt text s.p :: text.drop (s.p + 1)).length
      · simp only [if_pos hin]
        have hpos := @findlen_pos (charAt text s.p) (text.drop (s.p + 1)) (by rw [hnext]; exact hcomment)
        rw [hlen] at hin
        obtain ⟨hsome, hnone⟩ := hgo hround (show s.p < s.p + _ by omega)
          (show s.p + _ ≤ text.length by omega)
        rw [← htail, List.drop_drop]
        rw [← htail] at hsome hnone
        refine ⟨fun ts hts => ?_, fun h => hnone (Option.map_eq_none_iff.mp h)⟩
        obtain ⟨ts', hts', rfl⟩ := Option.map_eq_some_iff.mp hts
        obtain ⟨s', hs', htokens⟩ := hsome ts' hts'
        refine ⟨s', hs', htokens.trans ?_⟩
        exact List.append_assoc _ _ _
      · simp only [if_neg hin]
        refine ⟨fun ts hts => (by cases hts), fun _ => ?_⟩
        rw [cycle_next hround]
        refine ⟨_, cycle_wild (round_wild ?_)⟩
        show text.length < s.p + _
        omega

/-! ### The whole text -/

/-- The lexer returns the tokens of the text; where it has none, it reads behind the terminator. -/
theorem init_lexer_reads (htext : '\x00' ∉ text) (s : Scanner) :
    (∀ ts, Lexer.init_lexer text = some ts → ∃ s', init_lexer text s = .ok () s' ∧ s'.tokens = ts) ∧
      (Lexer.init_lexer text = none → ∃ s', init_lexer text s = .wild s') := by
  obtain ⟨hsome, hnone⟩ := @rounds_ok text htext (text.length + 1) ⟨0, 1, []⟩ (Nat.zero_le _)
    (by rw [List.drop_zero]; exact Nat.lt_succ_self _)
  constructor
  · intro ts hts
    obtain ⟨s', hs', htokens⟩ := hsome ts hts
    exact ⟨_, (bind_of_ok hs').trans rfl, htokens⟩
  · intro h
    obtain ⟨s', hs'⟩ := hnone h
    have hstart : update (fun _ => ⟨0, 1, []⟩) s = .ok () ⟨0, 1, []⟩ := rfl
    exact ⟨s', (bind_of_ok hstart).trans (bind_of_wild hs')⟩

/-- No character behind the terminator is read, the tokens are in front of it, and the last one is
the end of the text, at the terminator. -/
def StaysInside (text : Name) : Prop :=
  ∀ s, ∃ s' front line, init_lexer text s = .ok () s' ∧
    s'.tokens = front ++ [⟨T_EOF, text.length, 1, line⟩] ∧ ∀ t ∈ front, t.ind + t.len ≤ text.length

/-- The lexer stays in a text exactly if the literals of the text are closed. -/
theorem stays_inside_iff (htext : '\x00' ∉ text) : StaysInside text ↔ Closed text := by
  constructor
  · intro h
    obtain ⟨s', front, line, hs', -, -⟩ := h ⟨0, 1, []⟩
    cases hlex : Lexer.init_lexer text with
    | none =>
        obtain ⟨u, hu⟩ := (init_lexer_reads htext ⟨0, 1, []⟩).2 hlex
        cases hs'.symm.trans hu
    | some ts => exact closed_of_lex hlex
  · intro h s
    obtain ⟨front, line, hlex, hcovers⟩ := lex_covers h List.drop_zero (Nat.zero_le _) (Nat.lt_succ_self _)
    obtain ⟨s', hs', htokens⟩ := (init_lexer_reads htext s).1 _ hlex
    exact ⟨s', front, line, hs', htokens, fun t ht => (hcovers.placed t ht).2.2⟩

theorem stays_inside_literal : StaysInside literalText ↔ Closed literalText :=
  stays_inside_iff (by decide)

/-- A quote alone: the token ends behind the terminator, and that is where the next one is looked
for. -/
theorem quote_leaves : (∃ s', init_lexer ['"'] ⟨0, 1, []⟩ = .wild s' ∧ s'.p = 2 ∧
    s'.tokens = [⟨'"'.toNat, 0, 2, 1⟩]) ∧ ¬ StaysInside ['"'] := by
  have hrun : init_lexer ['"'] ⟨0, 1, []⟩ = .wild ⟨2, 1, [⟨'"'.toNat, 0, 2, 1⟩]⟩ := rfl
  refine ⟨⟨_, hrun, rfl, rfl⟩, fun h => ?_⟩
  obtain ⟨s', front, line, hs', -, -⟩ := h ⟨0, 1, []⟩
  cases hrun.symm.trans hs'

end Reads

end Lexer

end Eke
