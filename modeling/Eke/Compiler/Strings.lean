/-
String literals.

The lexer ends a literal at the first quote, the generator decodes the escapes between the quotes.
They agree on every literal but those that hold an escaped quote.
-/
import Eke.Compiler.Codegen
import Eke.Compiler.Lexer

namespace Eke

open Gen Lexer

/-! ### Writing a literal -/

/-- A character in a literal. -/
def escapeChar (c : Char) : Name :=
  if c = '\n' then ['\\', 'n'] else if c = '\t' then ['\\', 't'] else if c = '\r' then ['\\', 'r']
  else if c = '\\' then ['\\', '\\'] else if c = '"' then ['\\', '"'] else [c]

def escape : Name → Name
  | [] => []
  | c :: s => escapeChar c ++ escape s

/-- The literal of a string. -/
def quoted (s : Name) : Name := '"' :: (escape s ++ ['"'])

/-- The bytes of a string. -/
def byteString (s : Name) : List Byte := s.map fun c => BitVec.ofNat 8 c.toNat

variable {s : Name}

theorem quote_mem_escapeChar {c : Char} : '"' ∈ escapeChar c ↔ c = '"' := by
  unfold escapeChar
  split_ifs with h1 h2 h3 h4 h5
  · rw [h1]
    decide
  · rw [h2]
    decide
  · rw [h3]
    decide
  · rw [h4]
    decide
  · rw [h5]
    decide
  · rw [List.mem_singleton]
    exact eq_comm

/-- Only a quote is written with a quote. -/
theorem quote_mem_escape : '"' ∈ escape s ↔ '"' ∈ s := by
  induction s with
  | nil => rfl
  | cons c s ih =>
      rw [escape, List.mem_append, quote_mem_escapeChar, ih, List.mem_cons]
      exact or_congr_left eq_comm

theorem unescape_escapeChar (c : Char) (rest : Name) :
    unescape (escapeChar c ++ rest) = BitVec.ofNat 8 c.toNat :: unescape rest := by
  unfold escapeChar
  split_ifs with h1 h2 h3 h4 h5
  · rw [h1]
    rfl
  · rw [h2]
    rfl
  · rw [h3]
    rfl
  · rw [h4]
    rfl
  · rw [h5]
    rfl
  · rw [List.singleton_append, unescape]
    intro d cs hbackslash
    exact absurd hbackslash h4

/-- Decoding undoes writing. -/
theorem unescape_escape : unescape (escape s) = byteString s := by
  induction s with
  | nil => rfl
  | cons c s ih =>
      rw [escape, unescape_escapeChar, ih]
      rfl

theorem stripQuotes_quoted : stripQuotes (quoted s) = escape s := by
  have hlast : (quoted s).getLast? = some '"' := by
    unfold quoted
    rw [← List.cons_append, List.getLast?_append]
    rfl
  have hlen : (quoted s).length = (escape s).length + 2 := by simp [quoted]
  unfold stripQuotes
  rw [hlast, hlen]
  simp [quoted]

/-! ### Lexing a literal -/

/-- The characters up to the first quote. -/
def upToQuote (cs : Name) : Name := cs.takeWhile (· ≠ '"')

theorem lex_quote {cs : Name} {n p line : Nat} : lex (n + 1) ('"' :: cs) p line =
    if (upToQuote cs).length + 2 ≤ cs.length + 1 then
      (lex n (cs.drop ((upToQuote cs).length + 1)) (p + ((upToQuote cs).length + 2)) line).map
        (⟨'"'.toNat, p, (upToQuote cs).length + 2, line⟩ :: ·)
    else none := rfl

theorem upToQuote_none (h : '"' ∉ s) : upToQuote (escape s ++ ['"']) = escape s := by
  have hall : ∀ c ∈ escape s, decide (c ≠ '"') = true := by
    intro c hc
    refine decide_eq_true fun heq => h (quote_mem_escape.mp ?_)
    rw [← heq]
    exact hc
  unfold upToQuote
  rw [List.takeWhile_append_of_pos hall]
  exact List.append_nil _

theorem upToQuote_some (h : '"' ∈ s) : (upToQuote (escape s ++ ['"'])).length < (escape s).length := by
  obtain ⟨as, bs, hsplit⟩ := List.append_of_mem (quote_mem_escape.mpr h)
  have hstop : ∀ as bs : Name, ((as ++ '"' :: bs).takeWhile (· ≠ '"')).length ≤ as.length := by
    intro as bs
    induction as with
    | nil => exact Nat.le_refl 0
    | cons a as ih =>
        rw [List.cons_append, List.takeWhile_cons]
        split
        · exact Nat.succ_le_succ ih
        · exact Nat.zero_le _
  have hle := hstop as (bs ++ ['"'])
  unfold upToQuote
  rw [hsplit, List.append_assoc, List.cons_append, List.length_append, List.length_cons]
  omega

/-- A literal without quotes in it is one token. -/
theorem lex_quoted (h : '"' ∉ s) : init_lexer (quoted s) =
    some [⟨'"'.toNat, 0, (quoted s).length, 1⟩, ⟨T_EOF, (quoted s).length, 1, 1⟩] := by
  have hlen : (quoted s).length = (escape s).length + 2 := by simp [quoted]
  unfold init_lexer
  rw [hlen]
  unfold quoted
  rw [lex_quote, upToQuote_none h, if_pos (by simp), List.drop_of_length_le (by simp), Nat.zero_add]
  rfl

/-- Where a quote is in it, the first token ends too early. -/
theorem lex_quoted_short (h : '"' ∈ s) {t e : LexToken} (hlex : init_lexer (quoted s) = some [t, e]) :
    t.len < (quoted s).length := by
  have hlen : (quoted s).length = (escape s).length + 2 := by simp [quoted]
  have hshort := upToQuote_some h
  unfold init_lexer at hlex
  unfold quoted at hlex
  rw [lex_quote] at hlex
  split at hlex
  · obtain ⟨ts, -, hts⟩ := Option.map_eq_some_iff.mp hlex
    obtain ⟨rfl, -⟩ := List.cons.inj hts
    rw [hlen]
    show _ + 2 < _
    omega
  · cases hlex

/-! ### From the source to the data section -/

/-- The literal of `s` is one string token, and its text puts the bytes of `s` into the pool. -/
def LiteralRight (s : Name) (g : Gen) : Prop :=
  ∃ t e, init_lexer (quoted s) = some [t, e] ∧ t.type = '"'.toNat ∧ t.ind = 0 ∧
    t.len = (quoted s).length ∧ e.type = T_EOF ∧
    (g.add_to_string_pool (gettokenname (quoted s) t)).1 = g.str_pool.length ∧
    (g.add_to_string_pool (gettokenname (quoted s) t)).2.str_pool = g.str_pool ++ byteString s ++ [0]

theorem pool_quoted (g : Gen) : (g.add_to_string_pool (quoted s)).2.str_pool =
    g.str_pool ++ (byteString s).take (MAX_STR_POOL - 2 - g.str_pool.length) ++ [0] := by
  unfold add_to_string_pool
  simp only
  rw [stripQuotes_quoted, unescape_escape]

/-- The pool takes a whole string while two more bytes stay free. -/
theorem pool_whole (g : Gen) :
    (g.add_to_string_pool (quoted s)).2.str_pool = g.str_pool ++ byteString s ++ [0] ↔
      s = [] ∨ g.str_pool.length + s.length ≤ MAX_STR_POOL - 2 := by
  have hlen : (byteString s).length = s.length := List.length_map ..
  have hnil : s = [] ↔ s.length = 0 := List.length_eq_zero_iff.symm
  rw [pool_quoted, List.append_left_inj, List.append_right_inj, List.take_eq_self_iff, hlen, hnil]
  unfold MAX_STR_POOL
  omega

/-- **String literals.**  A literal is one token and its text gives back the string, if and only if
there is no quote in the string and the pool has room for it. -/
theorem literal_right_iff (s : Name) (g : Gen) : LiteralRight s g ↔
    '"' ∉ s ∧ (s = [] ∨ g.str_pool.length + s.length ≤ MAX_STR_POOL - 2) := by
  have hname : gettokenname (quoted s) ⟨'"'.toNat, 0, (quoted s).length, 1⟩ = quoted s := by
    unfold gettokenname
    rw [List.drop_zero, List.take_length]
  constructor
  · rintro ⟨t, e, hlex, -, -, hlen, -, -, hpool⟩
    have hquote : '"' ∉ s := fun hmem => absurd hlen (Nat.ne_of_lt (lex_quoted_short hmem hlex))
    rw [lex_quoted hquote] at hlex
    obtain ⟨rfl, -⟩ := List.cons.inj (Option.some.inj hlex)
    rw [hname] at hpool
    exact ⟨hquote, (pool_whole g).mp hpool⟩
  · rintro ⟨hquote, hroom⟩
    refine ⟨_, _, lex_quoted hquote, rfl, rfl, rfl, rfl, rfl, ?_⟩
    rw [hname]
    exact (pool_whole g).mpr hroom

/-- The literal of a single quote runs over the end of the text. -/
theorem quote_wrong : init_lexer (quoted ['"']) = none ∧ ∀ g, ¬ LiteralRight ['"'] g := by
  have hnone : init_lexer (quoted ['"']) = none := by decide
  refine ⟨hnone, fun g h => ?_⟩
  obtain ⟨t, e, hlex, -⟩ := h
  rw [hnone] at hlex
  cases hlex

end Eke
