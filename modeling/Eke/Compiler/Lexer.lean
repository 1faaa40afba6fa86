/-
The lexer.

A text is a C string, so that no character of it is zero, and the terminator is what is read
behind its end.  A literal that is not closed takes the lexer behind the terminator; what it
finds there is not in the text, and `none` is returned.  Only what `init_lexer` can reach is
here: `tokenize` is called for words alone, and the result of `checknum` is not used.

Most of what is proved is about texts in which a space follows every token.
-/
import Eke.Compiler.Coverage

namespace Eke

/-- A token with its place in the text. -/
structure LexToken where
  type : Int
  ind : Nat
  len : Nat
  line : Nat
  deriving DecidableEq

namespace Lexer

def isdigit (c : Char) : Bool := decide ('0' ≤ c ∧ c ≤ '9')

def isalpha (c : Char) : Bool := decide ('a' ≤ c ∧ c ≤ 'z' ∨ 'A' ≤ c ∧ c ≤ 'Z')

/-- A character of a text, or its terminator. -/
def charAt (code : Name) (i : Nat) : Char := code.getD i '\x00'

/-- What a word is made of. -/
def isword (c : Char) : Bool := isalpha c || c == '_' || isdigit c

/-- The length of the token that `code` starts with. -/
def findlen (code : Name) : Nat :=
  let c := charAt code 0
  let d := charAt code 1
  if c = '-' ∧ d = '>' then 2
  else if (c = '<' ∨ c = '>' ∨ c = '=' ∨ c = '!' ∨ c = '+' ∨ c = '-') ∧ d = '=' then 2
  else if c = '+' ∧ d = '+' ∨ c = '-' ∧ d = '-' ∨ c = '>' ∧ d = '>' ∨ c = '<' ∧ d = '<' then 2
  else if c = '(' ∨ c = ')' ∨ c = '{' ∨ c = '}' ∨ c = ';' then 1
  else if c = '"' then ((code.drop 1).takeWhile (· ≠ '"')).length + 2
  else if c = '\'' then ((code.drop 1).takeWhile (· ≠ '\'')).length + 2
  else if isdigit c then (code.takeWhile isdigit).length
  else if isalpha c ∨ c = '_' then (code.takeWhile isword).length
  else 1

def keywords : List (Name × Int) :=
  [(['i', 'f'], K_IF), (['d', 'o'], K_DO), (['f', 'o', 'r'], K_FOR), (['i', 'n', 't'], K_INT),
    (['v', 'o', 'i', 'd'], K_VOID), (['c', 'h', 'a', 'r'], K_CHAR), (['e', 'l', 's', 'e'], K_ELSE),
    (['c', 'a', 's', 'e'], K_CASE), (['g', 'o', 't', 'o'], K_GOTO), (['l', 'o', 'n', 'g'], K_LONG),
    (['a', 'u', 't', 'o'], K_AUTO), (['w', 'h', 'i', 'l', 'e'], K_WHILE),
    (['b', 'r', 'e', 'a', 'k'], K_BREAK), (['s', 'h', 'o', 'r', 't'], K_SHORT),
    (['c', 'o', 'n', 's', 't'], K_CONST), (['r', 'e', 't', 'u', 'r', 'n'], K_RETURN),
    (['e', 'x', 't', 'e', 'r', 'n'], K_EXTERN), (['s', 't', 'a', 't', 'i', 'c'], K_STATIC),
    (['s', 't', 'r', 'u', 'c', 't'], K_STRUCT), (['s', 'w', 'i', 't', 'c', 'h'], K_SWITCH),
    (['s', 'i', 'g', 'n', 'e', 'd'], K_SIGNED), (['d', 'e', 'f', 'a', 'u', 'l', 't'], K_DEFAULT),
    (['t', 'y', 'p', 'e', 'd', 'e', 'f'], K_TYPEDEF),
    (['u', 'n', 's', 'i', 'g', 'n', 'e', 'd'], K_UNSIGNED),
    (['v', 'o', 'l', 'a', 't', 'i', 'l', 'e'], K_VOLATILE),
    (['r', 'e', 'g', 'i', 's', 't', 'e', 'r'], K_REGISTER),
    (['c', 'o', 'n', 't', 'i', 'n', 'u', 'e'], K_CONTINUE)]

/-- The type of a word. -/
def tokenize (word : Name) : Int := (keywords.lookup word).getD T_IDENTIFIER

/-- The type of the token that `code` starts with. -/
def typeAt (code : Name) : Int :=
  let c := charAt code 0
  let d := charAt code 1
  if c = '+' ∧ d = '+' then T_INC
  else if c = '-' ∧ d = '-' then T_DEC
  else if c = '-' ∧ d = '>' then T_ARROW
  else if isdigit c then T_INT
  else if (c = '<' ∨ c = '>' ∨ c = '=' ∨ c = '!') ∧ d = '=' then
    if c = '<' then T_LEQ else if c = '>' then T_GEQ else if c = '=' then T_EQ else T_NEQ
  else if isalpha c ∨ c = '_' then tokenize (code.take (findlen code))
  else if c = '\'' then T_CHAR
  else charType c

/-- The tokens of `code`, which starts at `p`; each round takes a character at least. -/
def lex : Nat → Name → Nat → Nat → Option (List LexToken)
  | 0, _, _, _ => none
  | _ + 1, [], p, line => some [⟨T_EOF, p, 1, line⟩]
  | n + 1, c :: cs, p, line =>
      if c = ' ' ∨ c = '\t' ∨ c = '\r' then lex n cs (p + 1) line
      else if c = '\n' then lex n cs (p + 1) (line + 1)
      else if c = '/' ∧ charAt cs 0 = '/' then
        let rest := (cs.drop 1).dropWhile (· ≠ '\n')
        lex n rest (p + (c :: cs).length - rest.length) line
      else
        let l := findlen (c :: cs)
        if l ≤ (c :: cs).length then
          (lex n ((c :: cs).drop l) (p + l) line).map (⟨typeAt (c :: cs), p, l, line⟩ :: ·)
        else none

def init_lexer (c : Name) : Option (List LexToken) := lex (c.length + 1) c 0 1

def gettokenname (source : Name) (t : LexToken) : Name := (source.drop t.ind).take t.len

/-- The tokens of a text as the parser reads them. -/
def texts (source : Name) (ts : List LexToken) : List Token :=
  ts.map fun t => ⟨t.type, gettokenname source t⟩

variable {c : Char} {cs w rest : Name} {n p line : Nat} {ty : Int}

/-! ### The end of a text -/

/-- A C string. -/
def CText (text : Name) : Prop := ∀ c ∈ text, c.toNat ≠ 0 ∧ c.toNat < 256

theorem tokenize_mem (word : Name) :
    tokenize word = T_IDENTIFIER ∨ ∃ k ∈ keywords, tokenize word = k.2 := by
  unfold tokenize
  cases hfound : keywords.lookup word with
  | none => exact .inl rfl
  | some u =>
      obtain ⟨front, back, hks, -⟩ := List.lookup_eq_some_iff.mp hfound
      refine .inr ⟨(word, u), ?_, rfl⟩
      rw [hks]
      exact List.mem_append_right _ (List.mem_cons_self ..)

theorem tokenize_ne (word : Name) : tokenize word ≠ T_EOF := by
  have hall : ∀ k ∈ keywords, k.2 ≠ T_EOF := by
    decide
  rcases tokenize_mem word with hname | ⟨k, hk, hword⟩
  · rw [hname]
    decide
  · rw [hword]
    exact hall k hk

theorem charType_ne (h0 : c.toNat ≠ 0) (h : c.toNat < 256) : charType c ≠ T_EOF := by
  unfold charType
  split
  · exact Int.natCast_ne_zero.mpr h0
  · show (c.toNat : Int) - 256 ≠ 0
    omega

theorem typeAt_ne (h0 : c.toNat ≠ 0) (h : c.toNat < 256) : typeAt (c :: cs) ≠ T_EOF := by
  have hc : charAt (c :: cs) 0 = c := rfl
  unfold typeAt
  simp only [hc]
  split_ifs
  all_goals first
    | exact tokenize_ne _
    | exact charType_ne h0 h
    | decide

/-- The last token is the end of the text, and no other one is. -/
theorem lex_ends : ∀ {n : Nat} {code : Name} {p line : Nat} {ts : List LexToken}, CText code →
    lex n code p line = some ts → ∃ front last, ts = front ++ [last] ∧ last.type = T_EOF ∧
      ∀ t ∈ front, t.type ≠ T_EOF := by
  intro n
  induction n with
  | zero =>
      intro code p line ts _ h
      cases h
  | succ n ih =>
      intro code p line ts htext h
      cases code with
      | nil =>
          obtain rfl := Option.some.inj h
          exact ⟨[], _, rfl, rfl, fun t ht => by cases ht⟩
      | cons c cs =>
          have htail : CText cs := fun d hd => htext d (List.mem_cons_of_mem _ hd)
          obtain ⟨h0, h256⟩ := htext c (List.mem_cons_self ..)
          simp only [lex] at h
          split_ifs at h with h1 h2 h3 h4
          · exact ih htail h
          · exact ih htail h
          · refine ih (fun d hd => htail d ?_) h
            exact List.mem_of_mem_drop (List.dropWhile_sublist _ |>.subset hd)
          · obtain ⟨ts', hts', rfl⟩ := Option.map_eq_some_iff.mp h
            obtain ⟨front, last, rfl, hlast, hfront⟩ :=
              ih (fun d hd => htext d (List.mem_of_mem_drop hd)) hts'
            refine ⟨_ :: front, last, rfl, hlast, fun t ht => ?_⟩
            rcases List.mem_cons.mp ht with rfl | ht
            · exact typeAt_ne h0 h256
            · exact hfront t ht

/-- The tokens of a text end once. -/
theorem init_lexer_ends {text : Name} {ts : List LexToken} (htext : CText text)
    (h : init_lexer text = some ts) : Parser.EndsOnce (texts text ts) := by
  obtain ⟨front, last, rfl, -, hfront⟩ := lex_ends htext h
  intro i tok htok heof
  unfold texts at htok ⊢
  rw [List.map_append] at htok
  rw [List.length_map, List.length_append, List.length_singleton]
  rcases Nat.lt_or_ge i front.length with hlt | hge
  · rw [List.getElem?_append_left (by rw [List.length_map]; exact hlt), List.getElem?_map] at htok
    obtain ⟨t, ht, rfl⟩ := Option.map_eq_some_iff.mp htok
    exact absurd heof (hfront t (List.mem_of_getElem? ht))
  · have hi := (List.getElem?_eq_some_iff.mp htok).1
    rw [List.length_append, List.length_map, List.length_map, List.length_singleton] at hi
    omega

/-! ### Texts with a space behind every token -/

/-- The end of the text or a space. -/
def Sep (rest : Name) : Prop := ∀ c ∈ rest.head?, c = ' '

theorem sep_nil : Sep [] := fun _ h => by cases h

theorem sep_space : Sep (' ' :: rest) := fun _ h => (Option.some.inj h).symm

/-- In front of a space, `w` is one token. -/
structure Spelt (ty : Int) (w : Name) : Prop where
  starts : ∃ c cs, w = c :: cs ∧ ¬ (c = ' ' ∨ c = '\t' ∨ c = '\r') ∧ c ≠ '\n' ∧
    ∀ rest, Sep rest → ¬ (c = '/' ∧ charAt (cs ++ rest) 0 = '/')
  len : ∀ rest, Sep rest → findlen (w ++ rest) = w.length
  type : ∀ rest, Sep rest → typeAt (w ++ rest) = ty

theorem sep_cases (h : Sep rest) : rest = [] ∨ ∃ r, rest = ' ' :: r := by
  cases rest with
  | nil => exact Or.inl rfl
  | cons c r =>
      obtain rfl := h c rfl
      exact Or.inr ⟨r, rfl⟩

theorem takeWhile_sep {f : Char → Bool} (hw : ∀ c ∈ w, f c = true) (hf : f ' ' = false) (h : Sep rest) :
    (w ++ rest).takeWhile f = w := by
  rw [List.takeWhile_append_of_pos hw]
  obtain rfl | ⟨r, rfl⟩ := sep_cases h
  · rw [List.takeWhile_nil, List.append_nil]
  · rw [List.takeWhile_cons, hf]
    exact List.append_nil w

/-- A digit is no other character that the lexer looks for. -/
theorem digit_ne {d : Char} (hc : isdigit c = true) (hd : isdigit d = false) : c ≠ d := by
  intro heq
  rw [heq, hd] at hc
  cases hc

/-- A number is as long as its digits go. -/
theorem number_at (hc : isdigit c = true) :
    findlen (c :: cs) = ((c :: cs).takeWhile isdigit).length ∧ typeAt (c :: cs) = T_INT := by
  have hne := fun d => @digit_ne c d hc
  have hat : charAt (c :: cs) 0 = c := rfl
  constructor
  · unfold findlen
    simp only [hat, hne '-' (by decide), hne '<' (by decide), hne '>' (by decide), hne '=' (by decide),
      hne '!' (by decide), hne '+' (by decide), hne '(' (by decide), hne ')' (by decide), hne '{' (by decide),
      hne '}' (by decide), hne ';' (by decide), hne '"' (by decide), hne '\'' (by decide), hc, false_and,
      or_self, if_true, if_false]
  · unfold typeAt
    simp only [hat, hne '+' (by decide), hne '-' (by decide), hc, false_and, if_true, if_false]

theorem spelt_number (hne : w ≠ []) (h : ∀ c ∈ w, isdigit c = true) : Spelt T_INT w := by
  obtain ⟨c, cs, rfl⟩ := List.exists_cons_of_ne_nil hne
  have hc := h c (List.mem_cons_self ..)
  have hne := fun d => @digit_ne c d hc
  refine ⟨⟨c, cs, rfl, ?_, hne '\n' (by decide), fun rest _ hslash => hne '/' (by decide) hslash.1⟩, ?_, ?_⟩
  · rintro (hb | hb | hb)
    · exact hne ' ' (by decide) hb
    · exact hne '\t' (by decide) hb
    · exact hne '\r' (by decide) hb
  · intro rest hrest
    rw [List.cons_append, (number_at hc).1, ← List.cons_append, takeWhile_sep h (by decide) hrest]
  · exact fun rest _ => (number_at hc).2

/-- A letter is no other character that the lexer looks for. -/
theorem letter_ne {d : Char} (hc : (isalpha c || c == '_') = true) (hd : (isalpha d || d == '_') = false) :
    c ≠ d := by
  intro heq
  rw [heq, hd] at hc
  cases hc

theorem letter_no_digit (hc : (isalpha c || c == '_') = true) : isdigit c = false := by
  rw [Bool.eq_false_iff]
  intro hdigit
  unfold isalpha at hc
  unfold isdigit at hdigit
  simp only [Bool.or_eq_true, decide_eq_true_eq, beq_iff_eq, Char.le_def] at hc hdigit
  rcases hc with (⟨hlow, -⟩ | ⟨hlow, -⟩) | rfl
  · exact absurd (Nat.le_trans hlow hdigit.2) (by decide)
  · exact absurd (Nat.le_trans hlow hdigit.2) (by decide)
  · exact absurd hdigit.2 (by decide)

/-- A word is as long as its letters, digits and underscores go. -/
theorem word_at (hc : (isalpha c || c == '_') = true) :
    findlen (c :: cs) = ((c :: cs).takeWhile isword).length ∧
      typeAt (c :: cs) = tokenize ((c :: cs).take (findlen (c :: cs))) := by
  have hne := fun d => @letter_ne c d hc
  have hdigit := letter_no_digit hc
  have hc' : isalpha c = true ∨ c = '_' := by simpa using hc
  have hat : charAt (c :: cs) 0 = c := rfl
  constructor
  · unfold findlen
    simp only [hat, hne '-' (by decide), hne '<' (by decide), hne '>' (by decide), hne '=' (by decide),
      hne '!' (by decide), hne '+' (by decide), hne '(' (by decide), hne ')' (by decide), hne '{' (by decide),
      hne '}' (by decide), hne ';' (by decide), hne '"' (by decide), hne '\'' (by decide), hdigit, hc',
      false_and, or_self, if_true, if_false, Bool.false_eq_true]
  · unfold typeAt
    simp only [hat, hne '-' (by decide), hne '<' (by decide), hne '>' (by decide), hne '=' (by decide),
      hne '!' (by decide), hne '+' (by decide), hdigit, hc', false_and, or_self, if_true, if_false,
      Bool.false_eq_true]

theorem spelt_word (hc : (isalpha c || c == '_') = true) (hcs : ∀ d ∈ cs, isword d = true) :
    Spelt (tokenize (c :: cs)) (c :: cs) := by
  have hne := fun d => @letter_ne c d hc
  have hall : ∀ d ∈ c :: cs, isword d = true := by
    intro d hd
    rcases List.mem_cons.mp hd with rfl | hd
    · unfold isword
      rw [hc, Bool.true_or]
    · exact hcs d hd
  have hlen : ∀ rest, Sep rest → findlen ((c :: cs) ++ rest) = (c :: cs).length := by
    intro rest hrest
    rw [List.cons_append, (word_at hc).1, ← List.cons_append, takeWhile_sep hall (by decide) hrest]
  refine ⟨⟨c, cs, rfl, ?_, hne '\n' (by decide), fun rest _ hslash => hne '/' (by decide) hslash.1⟩,
    hlen, ?_⟩
  · rintro (hb | hb | hb)
    · exact hne ' ' (by decide) hb
    · exact hne '\t' (by decide) hb
    · exact hne '\r' (by decide) hb
  · intro rest hrest
    rw [List.cons_append, (word_at hc).2, ← List.cons_append, hlen rest hrest, List.take_left]

/-- The operators and brackets, with their types. -/
def symbols : List Token :=
  [⟨'('.toNat, ['(']⟩, ⟨')'.toNat, [')']⟩, ⟨'['.toNat, ['[']⟩, ⟨']'.toNat, [']']⟩,
    ⟨';'.toNat, [';']⟩, ⟨','.toNat, [',']⟩, ⟨'.'.toNat, ['.']⟩, ⟨T_ARROW, ['-', '>']⟩,
    ⟨T_INC, ['+', '+']⟩, ⟨T_DEC, ['-', '-']⟩, ⟨'&'.toNat, ['&']⟩, ⟨'*'.toNat, ['*']⟩,
    ⟨'/'.toNat, ['/']⟩, ⟨'%'.toNat, ['%']⟩, ⟨'+'.toNat, ['+']⟩, ⟨'-'.toNat, ['-']⟩,
    ⟨'<'.toNat, ['<']⟩, ⟨'>'.toNat, ['>']⟩, ⟨T_LEQ, ['<', '=']⟩, ⟨T_GEQ, ['>', '=']⟩,
    ⟨T_EQ, ['=', '=']⟩, ⟨T_NEQ, ['!', '=']⟩]

/-- A word that the lexer takes for what it is, with nothing or a space behind it. -/
theorem spelt_of {c : Char} {cs : Name} (hblank : ¬ (c = ' ' ∨ c = '\t' ∨ c = '\r')) (hline : c ≠ '\n')
    (hcomment : c = '/' → cs = []) (hend : findlen (c :: cs) = (c :: cs).length ∧ typeAt (c :: cs) = ty)
    (hnext : ∀ r, findlen ((c :: cs) ++ ' ' :: r) = (c :: cs).length ∧ typeAt ((c :: cs) ++ ' ' :: r) = ty) :
    Spelt ty (c :: cs) := by
  refine ⟨⟨c, cs, rfl, hblank, hline, fun rest hrest hslash => ?_⟩, fun rest hrest => ?_,
    fun rest hrest => ?_⟩
  · obtain ⟨hc, hnext⟩ := hslash
    rw [hcomment hc] at hnext
    obtain rfl | ⟨r, rfl⟩ := sep_cases hrest
    · exact absurd hnext (by decide)
    · exact absurd hnext (by simp [charAt])
  · obtain rfl | ⟨r, rfl⟩ := sep_cases hrest
    · rw [List.append_nil]
      exact hend.1
    · exact (hnext r).1
  · obtain rfl | ⟨r, rfl⟩ := sep_cases hrest
    · rw [List.append_nil]
      exact hend.2
    · exact (hnext r).2

theorem spelt_symbol : ∀ t ∈ symbols, Spelt t.type t.name := by
  intro t ht
  simp only [symbols, List.mem_cons, List.not_mem_nil, or_false] at ht
  rcases ht with rfl | rfl | rfl | rfl | rfl | rfl | rfl | rfl | rfl | rfl | rfl | rfl | rfl | rfl | rfl |
    rfl | rfl | rfl | rfl | rfl | rfl | rfl
  all_goals
    refine spelt_of (by decide) (by decide) (by decide) ⟨by decide, by decide⟩ fun r => ⟨rfl, rfl⟩

theorem lex_space : lex (n + 1) (' ' :: rest) p line = lex n rest (p + 1) line := if_pos (Or.inl rfl)

theorem lex_word (h : Spelt ty w) (hrest : Sep rest) : lex (n + 1) (w ++ rest) p line =
    (lex n rest (p + w.length) line).map (⟨ty, p, w.length, line⟩ :: ·) := by
  obtain ⟨c, cs, rfl, hblank, hline, hcomment⟩ := h.starts
  have hlen := h.len rest hrest
  have htype := h.type rest hrest
  rw [List.cons_append] at hlen htype ⊢
  simp only [lex]
  rw [if_neg hblank, if_neg hline, if_neg (hcomment rest hrest), hlen, htype, if_pos]
  · rw [← List.cons_append, List.drop_left]
  · rw [← List.cons_append, List.length_append]
    exact Nat.le_add_right _ _

/-- The words of some tokens, with spaces between them. -/
def spell : List Token → Name
  | [] => []
  | [t] => t.name
  | t :: u :: ts => t.name ++ ' ' :: spell (u :: ts)

theorem lex_spell (source : Name) : ∀ {ts : List Token} {n p : Nat}, (∀ t ∈ ts, Spelt t.type t.name) →
    source.drop p = spell ts → (spell ts).length < n →
    ∃ lts, lex n (spell ts) p line = some lts ∧ texts source lts = ts ++ [⟨T_EOF, []⟩] := by
  intro ts
  induction ts with
  | nil =>
      intro n p _ hsource hn
      obtain ⟨n, rfl⟩ := Nat.exists_eq_add_one_of_ne_zero (Nat.ne_of_gt (Nat.zero_lt_of_lt hn))
      refine ⟨_, rfl, ?_⟩
      simp [texts, gettokenname, hsource, spell]
  | cons t ts ih =>
      intro n p hall hsource hn
      obtain ⟨n, rfl⟩ := Nat.exists_eq_add_one_of_ne_zero (Nat.ne_of_gt (Nat.zero_lt_of_lt hn))
      have ht := hall t (List.mem_cons_self ..)
      have hts := fun u hu => hall u (List.mem_cons_of_mem t hu)
      have hpos : 0 < t.name.length := by
        obtain ⟨c, cs, hcs, -⟩ := ht.starts
        rw [hcs]
        exact Nat.zero_lt_succ _
      cases ts with
      | nil =>
          obtain ⟨lts, hlts, htexts⟩ := ih (n := n) (p := p + t.name.length) hts
            (by rw [← List.drop_drop, hsource]; simp [spell])
            (by simp only [spell, List.length_nil] at hn ⊢; omega)
          have hword : lex (n + 1) (t.name ++ []) p line = _ := lex_word ht sep_nil
          rw [List.append_nil] at hword
          refine ⟨⟨t.type, p, t.name.length, line⟩ :: lts, ?_, ?_⟩
          · simp only [spell]
            rw [hword]
            simp only [spell] at hlts
            rw [hlts]
            rfl
          · unfold texts at htexts ⊢
            rw [List.map_cons, htexts]
            simp [gettokenname, hsource, spell]
      | cons u us =>
          obtain ⟨n, rfl⟩ : ∃ k, n = k + 1 := by
            simp only [spell, List.length_append, List.length_cons] at hn
            exact ⟨n - 1, by omega⟩
          have hrest : source.drop (p + t.name.length + 1) = spell (u :: us) := by
            rw [Nat.add_assoc, ← List.drop_drop, hsource]
            simp [spell]
          obtain ⟨lts, hlts, htexts⟩ := ih (n := n) hts hrest
            (by simp only [spell, List.length_append, List.length_cons] at hn ⊢; omega)
          refine ⟨⟨t.type, p, t.name.length, line⟩ :: lts, ?_, ?_⟩
          · simp only [spell]
            rw [lex_word ht sep_space, lex_space, hlts]
            rfl
          · unfold texts at htexts ⊢
            rw [List.map_cons, htexts]
            simp [gettokenname, hsource, spell]

/-- Lexing undoes spelling. -/
theorem init_lexer_spell {ts : List Token} (h : ∀ t ∈ ts, Spelt t.type t.name) :
    ∃ lts, init_lexer (spell ts) = some lts ∧ texts (spell ts) lts = ts ++ [⟨T_EOF, []⟩] :=
  lex_spell (spell ts) h rfl (Nat.lt_succ_self _)

end Lexer

end Eke
