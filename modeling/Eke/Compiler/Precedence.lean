/-
Precedence of the binary operators.

An expression is written with the parentheses C needs and read back.  The loop of
`parse_expression` is what carries the proof: on the text of a tree it comes, whatever follows, to
the state in which the tree has been read and the loop looks at what follows (`climbs`).  A literal
is converted by `atoi`, which is the one thing that does not come back from every tree.
-/
import Eke.Compiler.Lexer

namespace Eke

open Prog

namespace Parser

variable {r : Calls} {s t : Parser} {p : Int} {n k i : Nat} {left left' : Node} {w : Name}

/-! ### Steps in front of a known token -/

/-- The parser at another place of the text. -/
def goto (s : Parser) (i : Nat) : Parser := { s with tp1 := i }

theorem advance_token (h : tokenType s s.tp1 ≠ T_EOF) :
    advance s = .ok (tokenAt s s.tp1) (s.goto (s.tp1 + 1)) := by
  rw [advance_eq, if_pos h]
  rfl

theorem consume_token {ty : Int} (h : tokenType s s.tp1 = ty) :
    consume ty s = .ok (tokenAt s s.tp1) (s.goto (s.tp1 + 1)) := by
  rw [consume_eq, if_pos h.symm]
  rfl

/-- A literal. -/
theorem nud_int (h : tokenType s s.tp1 = T_INT) : nud r s =
    .ok (.mk s.tp1 (.int (BitVec.ofInt 64 (atoi (tokenAt s s.tp1).name))) .null .null)
      (s.goto (s.tp1 + 1)) := by
  have hpeek : peek s = .ok (tokenAt s s.tp1) s := rfl
  have htype : (tokenAt s s.tp1).type = T_INT := h
  have hnext := advance_token (s := s) (by rw [h]; decide)
  unfold nud
  rw [bind_of_ok hpeek]
  simp only [htype]
  rw [if_neg (by decide), if_neg (by decide), if_neg (by decide), if_neg (by decide), if_pos trivial]
  exact bind_of_ok hnext

/-- The variable a name stands for. -/
def nameKind (s : Parser) (x : Name) : Kind :=
  if symbolBelow s.symtab x s.sp = -1 then .var 0 0 .null
  else useKind (s.symtab (symbolBelow s.symtab x s.sp).toNat)

theorem symbolBelow_range (symtab : Nat → Record) (x : Name) : ∀ sp : Nat,
    symbolBelow symtab x sp = -1 ∨ 0 ≤ symbolBelow symtab x sp ∧ symbolBelow symtab x sp < sp := by
  intro sp
  induction sp with
  | zero => exact Or.inl rfl
  | succ sp ih =>
      unfold symbolBelow
      split
      · exact Or.inr ⟨Int.natCast_nonneg sp, by omega⟩
      · rcases ih with ih | ih
        · exact Or.inl ih
        · exact Or.inr ⟨ih.1, by omega⟩

/-- A name up to its index expressions. -/
theorem nud_name (h : tokenType s s.tp1 = T_IDENTIFIER) : nud r s =
    (indexes r >>= fun es => pure (.mk s.tp1 (nameKind s (tokenAt s s.tp1).name) (indexChain es) .null) :
      P Node) (s.goto (s.tp1 + 1)) := by
  have hpeek : peek s = .ok (tokenAt s s.tp1) s := rfl
  have htype : (tokenAt s s.tp1).type = T_IDENTIFIER := h
  have hnext := advance_token (s := s) (by rw [h]; decide)
  have hkind : ∀ w, (if symbolBelow s.symtab w s.sp = -1 then pure (.var 0 0 .null) else
      symbol useKind (symbolBelow s.symtab w s.sp) : P Kind) s = .ok (nameKind s w) s := by
    intro w
    unfold nameKind
    split
    · rfl
    · rename_i hfound
      obtain ⟨h0, hlt⟩ := (symbolBelow_range s.symtab w s.sp).resolve_left hfound
      exact if_pos ⟨h0, hlt⟩
  unfold nud
  rw [bind_of_ok hpeek]
  simp only [htype]
  rw [if_neg (by decide), if_neg (by decide), if_neg (by decide), if_neg (by decide), if_neg (by decide),
    if_neg (by decide), if_neg (by decide), if_pos trivial]
  unfold identifier find_symbol
  rw [bind_gets, bind_of_ok (hkind _)]
  exact bind_of_ok hnext

/-- No index expression follows. -/
theorem indexes_none (hfuel : 0 < r.fuel) (h : tokenType s s.tp1 ≠ '['.toNat) :
    indexes r s = .ok [] s := by
  obtain ⟨n, hn⟩ := Nat.exists_eq_add_one_of_ne_zero (Nat.ne_of_gt hfuel)
  have hno : match_ '['.toNat s = .ok false s := by
    exact congrArg (Out.ok · s) (decide_eq_false fun heq => h heq.symm)
  unfold indexes
  rw [hn]
  exact cycle_stop (bind_of_ok hno)

/-- An expression in parentheses. -/
theorem nud_paren {e : Node} (h : tokenType s s.tp1 = '('.toNat)
    (he : r.parse_expression 0 (s.goto (s.tp1 + 1)) = .ok e t) (hclose : tokenType t t.tp1 = ')'.toNat) :
    nud r s = .ok e (t.goto (t.tp1 + 1)) := by
  have hpeek : peek s = .ok (tokenAt s s.tp1) s := rfl
  have htype : (tokenAt s s.tp1).type = '('.toNat := h
  have hnext := advance_token (s := s) (by rw [h]; decide)
  unfold nud
  rw [bind_of_ok hpeek]
  simp only [htype]
  rw [if_neg (by decide), if_neg (by decide), if_neg (by decide), if_neg (by decide), if_neg (by decide),
    if_pos trivial, bind_of_ok hnext, bind_of_ok he]
  exact bind_of_ok (consume_token hclose)

/-! ### The loop over the operators -/

/-- The loop of `parse_expression`. -/
def climb (r : Calls) (p : Int) (k : Nat) (left : Node) : P Node :=
  cycle k (fun left => do
    let t ← peek
    if get_precedence t.type > p then do
      let left' ← led r left
      pure (.inl left')
    else pure (.inr left)) left

theorem parse_expression_eq (r : Calls) (p : Int) : parse_expression r p = nud r >>= climb r p r.fuel := rfl

theorem calls_expression (n : Nat) (p : Int) : (calls (n + 1)).parse_expression p =
    (nud (calls n) >>= climb (calls n) p n : P Node) := by
  show parse_expression (calls n) p = _
  rw [parse_expression_eq, calls_fuel]

theorem climb_stop (h : get_precedence (tokenType s s.tp1) ≤ p) :
    climb r p (k + 1) left s = .ok left s := by
  refine cycle_stop ?_
  show (if get_precedence (tokenType s s.tp1) > p then _ else _ : P (Node ⊕ Node)) s = _
  rw [if_neg (Int.not_lt.mpr h)]
  rfl

theorem climb_next (h : p < get_precedence (tokenType s s.tp1)) (hled : led r left s = .ok left' t) :
    climb r p (k + 1) left s = climb r p k left' t := by
  refine cycle_next ?_
  show (if get_precedence (tokenType s s.tp1) > p then _ else _ : P (Node ⊕ Node)) s = _
  rw [if_pos h]
  exact bind_of_ok hled

/-- The token is a binary operator. -/
def Binary (ty : Int) : Prop :=
  ty ≠ T_EOF ∧ ty ≠ '('.toNat ∧ ¬ (ty = '.'.toNat ∨ ty = T_ARROW) ∧ ty ≠ T_INC ∧ ty ≠ T_DEC

theorem led_binary {right : Node} {ty : Int} (hty : tokenType s s.tp1 = ty) (h : Binary ty)
    (hright : r.parse_expression (get_precedence ty) (s.goto (s.tp1 + 1)) = .ok right t) :
    led r left s = .ok (.mk 0 (.bin ty (left.setNext .null) right) .null .null) t := by
  subst hty
  obtain ⟨heof, hcall, hmember, hinc, hdec⟩ := h
  unfold led
  rw [bind_of_ok (advance_token heof)]
  rw [show (tokenAt s s.tp1).type = tokenType s s.tp1 from rfl, if_neg hcall, if_neg hmember, if_neg hinc,
    if_neg hdec]
  exact bind_of_ok hright

/-! ### The text in front of the parser -/

/-- These tokens stand at a place of the text. -/
def Stands (s : Parser) : Nat → List Token → Prop
  | _, [] => True
  | i, t :: ts => tokenAt s i = t ∧ Stands s (i + 1) ts

theorem stands_append {ys : List Token} : ∀ {xs : List Token} {i : Nat},
    Stands s i (xs ++ ys) ↔ Stands s i xs ∧ Stands s (i + xs.length) ys := by
  intro xs
  induction xs with
  | nil => exact fun {i} => ⟨fun h => ⟨trivial, h⟩, And.right⟩
  | cons x xs ih =>
      intro i
      rw [List.cons_append, Stands, Stands, ih, and_assoc, List.length_cons, Nat.add_assoc, Nat.add_comm 1]

theorem stands_of {ts rest : List Token} : ∀ {i : Nat}, s.tokens.drop i = ts ++ rest → Stands s i ts := by
  induction ts with
  | nil => exact fun _ => trivial
  | cons u ts ih =>
      intro i h
      constructor
      · unfold tokenAt
        rw [← List.head?_drop, h]
        rfl
      · refine ih ?_
        rw [← List.drop_drop, h]
        rfl

end Parser

/-! ### Expressions in C -/

open Eke.Lexer Eke.Parser

/-- A name in C that is no keyword. -/
def IsIdentifier (x : Name) : Prop :=
  (∃ c cs, x = c :: cs ∧ (isalpha c || c == '_') = true ∧ ∀ d ∈ cs, isword d = true) ∧
    tokenize x = T_IDENTIFIER

inductive BinOp
  | mul | div | rem | add | sub | lt | gt | le | ge | eq | ne

def BinOp.token : BinOp → Token
  | mul => ⟨'*'.toNat, ['*']⟩
  | div => ⟨'/'.toNat, ['/']⟩
  | rem => ⟨'%'.toNat, ['%']⟩
  | add => ⟨'+'.toNat, ['+']⟩
  | sub => ⟨'-'.toNat, ['-']⟩
  | lt => ⟨'<'.toNat, ['<']⟩
  | gt => ⟨'>'.toNat, ['>']⟩
  | le => ⟨T_LEQ, ['<', '=']⟩
  | ge => ⟨T_GEQ, ['>', '=']⟩
  | eq => ⟨T_EQ, ['=', '=']⟩
  | ne => ⟨T_NEQ, ['!', '=']⟩

/-- The precedence in C: the higher one binds tighter. -/
def BinOp.rank : BinOp → Nat
  | mul | div | rem => 4
  | add | sub => 3
  | lt | gt | le | ge => 2
  | eq | ne => 1

inductive BinExpr
  | num (n : Nat)
  | var (x : { x : Name // IsIdentifier x })
  | bin (op : BinOp) (left right : BinExpr)

namespace BinExpr

def rank : BinExpr → Nat
  | num _ => 5
  | var _ => 5
  | bin op _ _ => op.rank

/-- Parentheses, where they are needed. -/
def wrap (needed : Bool) (ts : List Token) : List Token :=
  if needed then ⟨'('.toNat, ['(']⟩ :: (ts ++ [⟨')'.toNat, [')']⟩]) else ts

/-- The text of an expression: a left operand needs parentheses if its operator binds less
tightly, a right operand also if it binds as tightly. -/
def print : BinExpr → List Token
  | num n => [⟨T_INT, Nat.toDigits 10 n⟩]
  | var x => [⟨T_IDENTIFIER, x.1⟩]
  | bin op l r => wrap (decide (l.rank < op.rank)) l.print ++
      op.token :: wrap (decide (r.rank ≤ op.rank)) r.print

/-- The literals of an expression. -/
def literals : BinExpr → List Nat
  | num n => [n]
  | var _ => []
  | bin _ l r => l.literals ++ r.literals

/-- The node stands for the expression: literals have their values, names are looked up, and the
operators are as in the tree. -/
inductive Denotes (s : Parser) : BinExpr → Node → Prop
  | num {n : Nat} {i : Int} {v : BitVec 64} : v.toInt = n → Denotes s (num n) (.mk i (.int v) .null .null)
  | var {x : { x : Name // IsIdentifier x }} {i : Int} :
      Denotes s (var x) (.mk i (nameKind s x.1) .null .null)
  | bin {op : BinOp} {l r : BinExpr} {nl nr : Node} {i : Int} : Denotes s l nl → Denotes s r nr →
      Denotes s (bin op l r) (.mk i (.bin op.token.type nl nr) .null .null)

/-! ### What the parser makes of them -/

/-- How tightly the parser takes an operand together. -/
def level : BinExpr → Int
  | num _ => 70
  | var _ => 70
  | bin op _ _ => get_precedence op.token.type

/-- How many rounds of the loop the expression takes. -/
def spine : BinExpr → Nat
  | num _ => 0
  | var _ => 0
  | bin op l _ => (if l.rank < op.rank then 0 else l.spine) + 1

/-- What is in front of an operand. -/
def lead (needed : Bool) : Nat := if needed then 1 else 0

/-- The tree that is made of an expression at `i`. -/
def nodeAt (s : Parser) : Nat → BinExpr → Node
  | i, num n => .mk i (.int (BitVec.ofInt 64 (atoi (Nat.toDigits 10 n)))) .null .null
  | i, var x => .mk i (nameKind s x.1) .null .null
  | i, bin op l r => .mk 0 (.bin op.token.type (nodeAt s (i + lead (decide (l.rank < op.rank))) l)
      (nodeAt s (i + (wrap (decide (l.rank < op.rank)) l.print).length + 1 +
        lead (decide (r.rank ≤ op.rank))) r)) .null .null

theorem nodeAt_next (s : Parser) (i : Nat) (e : BinExpr) : (nodeAt s i e).setNext .null = nodeAt s i e := by
  cases e <;> rfl

theorem op_binary (op : BinOp) : Binary op.token.type := by
  cases op <;> exact ⟨by decide, by decide, by decide, by decide, by decide⟩

theorem op_level (op op' : BinOp) :
    (op'.rank < op.rank ↔ get_precedence op'.token.type < get_precedence op.token.type) ∧
      (op'.rank ≤ op.rank ↔ get_precedence op'.token.type ≤ get_precedence op.token.type) := by
  cases op <;> cases op' <;> decide

theorem primary_level (op : BinOp) :
    (5 < op.rank ↔ 70 < get_precedence op.token.type) ∧
      (5 ≤ op.rank ↔ 70 ≤ get_precedence op.token.type) := by
  cases op <;> decide

/-- The parser's precedences are in the order of C. -/
theorem level_rank (op : BinOp) (e : BinExpr) :
    (e.rank < op.rank ↔ e.level < get_precedence op.token.type) ∧
      (e.rank ≤ op.rank ↔ e.level ≤ get_precedence op.token.type) := by
  cases e with
  | num n => exact primary_level op
  | var x => exact primary_level op
  | bin op' l r => exact op_level op op'

theorem op_bounds (op : BinOp) : 0 < get_precedence op.token.type ∧ get_precedence op.token.type ≤ 70 := by
  cases op <;> decide

theorem level_bounds (e : BinExpr) : 0 < e.level ∧ e.level ≤ 70 := by
  cases e with
  | num n => exact (by decide : (0 : Int) < 70 ∧ (70 : Int) ≤ 70)
  | var x => exact (by decide : (0 : Int) < 70 ∧ (70 : Int) ≤ 70)
  | bin op l r => exact op_bounds op

theorem wrap_length (b : Bool) (ts : List Token) : (wrap b ts).length = ts.length + 2 * lead b := by
  cases b with
  | false => rfl
  | true => simp [wrap, lead]

theorem spine_lt : ∀ e : BinExpr, e.spine < e.print.length := by
  intro e
  induction e with
  | num n => exact Nat.zero_lt_one
  | var x => exact Nat.zero_lt_one
  | bin op l r ihl ihr =>
      simp only [spine, print, List.length_append, List.length_cons, wrap_length]
      split
      · omega
      · omega

/-- The loop comes to the state in which the expression has been read. -/
def Climbs (s : Parser) (e : BinExpr) : Prop :=
  ∀ (i n : Nat) (p : Int), Stands s i e.print → p < e.level →
    get_precedence (tokenType s (i + e.print.length)) ≤ e.level → e.print.length ≤ n →
    (nud (calls n) >>= climb (calls n) p n : P Node) (s.goto i) =
      climb (calls n) p (n - e.spine) (nodeAt s i e) (s.goto (i + e.print.length))

variable {s : Parser} {e l r : BinExpr} {i n : Nat} {p : Int} {b : Bool}

/-- With what cannot belong to it behind it, the whole expression is what is read. -/
theorem Climbs.expression (h : Climbs s e) (hstands : Stands s i e.print) (hp : p < e.level)
    (hstop : get_precedence (tokenType s (i + e.print.length)) ≤ p) (hn : e.print.length < n) :
    (calls n).parse_expression p (s.goto i) = .ok (nodeAt s i e) (s.goto (i + e.print.length)) := by
  obtain ⟨n, rfl⟩ := Nat.exists_eq_add_one_of_ne_zero (Nat.ne_of_gt (Nat.zero_lt_of_lt hn))
  have hspine := spine_lt e
  obtain ⟨k, hk⟩ : ∃ k, n - e.spine = k + 1 := ⟨n - e.spine - 1, by omega⟩
  rw [calls_expression, h i n p hstands hp (by omega) (Nat.le_of_lt_succ hn), hk]
  exact climb_stop hstop

theorem Climbs.paren (h : Climbs s e) (hstands : Stands s i (wrap true e.print))
    (hn : (wrap true e.print).length ≤ n) : nud (calls n) (s.goto i) =
      .ok (nodeAt s (i + 1) e) (s.goto (i + (wrap true e.print).length)) := by
  obtain ⟨hopen, hinside⟩ := hstands
  obtain ⟨hinside, hclose, -⟩ := stands_append.mp hinside
  have hlen : (wrap true e.print).length = e.print.length + 2 := wrap_length true e.print
  have htype : tokenType s (i + 1 + e.print.length) = ')'.toNat := congrArg Token.type hclose
  have hexpr : (calls n).parse_expression 0 (s.goto (i + 1)) = _ :=
    h.expression hinside (level_bounds e).1 (by rw [htype]; decide) (by omega)
  have hplace : i + (wrap true e.print).length = i + 1 + e.print.length + 1 := by omega
  rw [hplace]
  exact nud_paren (s := s.goto i) (congrArg Token.type hopen) hexpr htype

/-- A left operand, which has parentheses unless it binds tightly enough. -/
theorem Climbs.left (h : Climbs s e) (hstands : Stands s i (wrap b e.print))
    (hbind : b = false → p < e.level ∧
      get_precedence (tokenType s (i + (wrap b e.print).length)) ≤ e.level)
    (hn : (wrap b e.print).length ≤ n) :
    (nud (calls n) >>= climb (calls n) p n : P Node) (s.goto i) =
      climb (calls n) p (n - if b then 0 else e.spine) (nodeAt s (i + lead b) e)
        (s.goto (i + (wrap b e.print).length)) := by
  cases b with
  | false =>
      obtain ⟨hp, hstop⟩ := hbind rfl
      exact h i n p hstands hp hstop hn
  | true => exact bind_of_ok (h.paren hstands hn)

/-- A right operand, with an operator behind it that does not bind more tightly. -/
theorem Climbs.right (h : Climbs s e) (hstands : Stands s i (wrap b e.print))
    (hbind : b = false → p < e.level)
    (hstop : get_precedence (tokenType s (i + (wrap b e.print).length)) ≤ p)
    (hn : (wrap b e.print).length < n) :
    (calls n).parse_expression p (s.goto i) =
      .ok (nodeAt s (i + lead b) e) (s.goto (i + (wrap b e.print).length)) := by
  cases b with
  | false => exact h.expression hstands (hbind rfl) hstop hn
  | true =>
      have hlen : (wrap true e.print).length = e.print.length + 2 := wrap_length true e.print
      obtain ⟨n, rfl⟩ : ∃ k, n = k + 1 + 1 := ⟨n - 2, by omega⟩
      rw [calls_expression, bind_of_ok (h.paren hstands (Nat.le_of_lt_succ hn))]
      exact climb_stop hstop

/-- A literal or a variable is read in one step. -/
theorem climbs_primary (hlen : e.print.length = 1) (hspine : e.spine = 0)
    (hnud : ∀ i n, 0 < n → Stands s i e.print → tokenType s (i + 1) ≠ '['.toNat →
      nud (calls n) (s.goto i) = .ok (nodeAt s i e) (s.goto (i + 1))) : Climbs s e := by
  intro i n p hstands hp hstop hn
  rw [hlen] at hstop hn ⊢
  have hindex : tokenType s (i + 1) ≠ '['.toNat := by
    intro heq
    have hlevel := (level_bounds e).2
    rw [heq] at hstop
    have : get_precedence '['.toNat = 80 := by decide
    omega
  rw [bind_of_ok (hnud i n hn hstands hindex), hspine]
  rfl

theorem climbs_num (s : Parser) (n : Nat) : Climbs s (num n) := by
  refine climbs_primary rfl rfl fun i k hk hstands hindex => ?_
  obtain ⟨htoken, -⟩ := hstands
  have h := nud_int (r := calls k) (s := s.goto i) (congrArg Token.type htoken)
  rw [show tokenAt (s.goto i) (s.goto i).tp1 = tokenAt s i from rfl, htoken] at h
  exact h

theorem climbs_var (s : Parser) (x : { x : Name // IsIdentifier x }) : Climbs s (var x) := by
  refine climbs_primary rfl rfl fun i k hk hstands hindex => ?_
  obtain ⟨htoken, -⟩ := hstands
  obtain ⟨k, rfl⟩ := Nat.exists_eq_add_one_of_ne_zero (Nat.ne_of_gt hk)
  have h := nud_name (r := calls (k + 1)) (s := s.goto i) (congrArg Token.type htoken)
  rw [bind_of_ok (indexes_none (Nat.zero_lt_succ k) hindex),
    show tokenAt (s.goto i) (s.goto i).tp1 = tokenAt s i from rfl, htoken] at h
  exact h

theorem climbs_bin (op : BinOp) (hl : Climbs s l) (hr : Climbs s r) : Climbs s (bin op l r) := by
  intro i n p hstands hp hstop hn
  obtain ⟨hleft, hop, hright⟩ := stands_append.mp hstands
  have hlen : (bin op l r).print.length = (wrap (decide (l.rank < op.rank)) l.print).length + 1 +
      (wrap (decide (r.rank ≤ op.rank)) r.print).length := by
    rw [print, List.length_append, List.length_cons, Nat.add_assoc, Nat.add_comm 1]
  rw [hlen, ← Nat.add_assoc, ← Nat.add_assoc] at hstop
  have htype : tokenType s (i + (wrap (decide (l.rank < op.rank)) l.print).length) = op.token.type :=
    congrArg Token.type hop
  obtain ⟨hlrank, -⟩ := level_rank op l
  obtain ⟨-, hrrank⟩ := level_rank op r
  -- the left operand takes its own rounds of the same loop
  have hread := hl.left (p := p) (n := n) hleft
    (fun hb => by
      have hle := Int.not_lt.mp (mt hlrank.mpr (of_decide_eq_false hb))
      rw [htype]
      exact ⟨Int.lt_of_lt_of_le hp hle, hle⟩)
    (by omega)
  -- the right one is what the operator's own call of `parse_expression` reads
  have hcall := hr.right (p := get_precedence op.token.type) (n := n) hright
    (fun hb => Int.not_le.mp (mt hrrank.mpr (of_decide_eq_false hb))) hstop
    (by omega)
  obtain ⟨k, hk⟩ : ∃ k, n - (if decide (l.rank < op.rank) = true then 0 else l.spine) = k + 1 := by
    have hspine := spine_lt l
    have hwrap := wrap_length (decide (l.rank < op.rank)) l.print
    exact ⟨n - (if decide (l.rank < op.rank) = true then 0 else l.spine) - 1, by split <;> omega⟩
  have hrest : n - (bin op l r).spine = k := by
    simp only [spine, decide_eq_true_eq] at hk ⊢
    omega
  rw [hread, hk, hrest, hlen, ← Nat.add_assoc, ← Nat.add_assoc]
  have hled : led (calls n) (nodeAt s (i + lead (decide (l.rank < op.rank))) l)
      (s.goto (i + (wrap (decide (l.rank < op.rank)) l.print).length)) = _ :=
    led_binary htype (op_binary op) hcall
  rw [nodeAt_next] at hled
  exact climb_next (Int.lt_of_lt_of_le hp (Int.le_of_eq (congrArg get_precedence htype).symm)) hled

theorem climbs (s : Parser) : ∀ e : BinExpr, Climbs s e := by
  intro e
  induction e with
  | num n => exact climbs_num s n
  | var x => exact climbs_var s x
  | bin op l r ihl ihr => exact climbs_bin op ihl ihr

/-! ### Literals -/

theorem int32_digit (a d : Int) : int32 (int32 a * 10 + d) = int32 (a * 10 + d) :=
  int32_add_congr (int32_mul_congr (int32_int32 a) 10) d

theorem digits_append {c : Char} (hc : '0' ≤ c ∧ c ≤ '9') : ∀ {cs : Name} {res : Int},
    (∀ d ∈ cs, '0' ≤ d ∧ d ≤ '9') →
    digits res (cs ++ [c]) = int32 (digits res cs * 10 + (c.toNat - '0'.toNat)) := by
  intro cs
  induction cs with
  | nil =>
      intro res _
      simp only [List.nil_append, digits]
      rw [if_pos hc]
  | cons d cs ih =>
      intro res hcs
      simp only [List.cons_append, digits]
      rw [if_pos (hcs d (List.mem_cons_self ..)), if_pos (hcs d (List.mem_cons_self ..))]
      exact ih fun d hd => hcs d (List.mem_cons_of_mem _ hd)

theorem toDigits_digit {c : Char} {n : Nat} (h : c ∈ Nat.toDigits 10 n) : '0' ≤ c ∧ c ≤ '9' := by
  have hdigit : c.isDigit = true := Nat.isDigit_of_mem_toDigits (by decide) (by decide) h
  simp only [Char.isDigit, Bool.and_eq_true, decide_eq_true_eq] at hdigit
  exact hdigit

theorem digits_toDigits (n : Nat) : digits 0 (Nat.toDigits 10 n) = int32 n := by
  induction n using Nat.strongRecOn with
  | ind n ih =>
      have hchar : ∀ d, d < 10 → ((Nat.digitChar d).toNat : Int) - '0'.toNat = d := by
        intro d hd
        rw [Nat.toNat_digitChar_of_lt_ten hd]
        show ((48 + d : Nat) : Int) - 48 = d
        omega
      have hdigit : ∀ d, d < 10 → '0' ≤ Nat.digitChar d ∧ Nat.digitChar d ≤ '9' := by
        intro d hd
        exact toDigits_digit (n := d) (by rw [Nat.toDigits_of_lt_base hd]; exact List.mem_singleton_self _)
      by_cases hn : n < 10
      · rw [Nat.toDigits_of_lt_base hn, ← List.nil_append [_], digits_append (hdigit n hn) (by simp)]
        rw [hchar n hn]
        simp [digits]
      · rw [Nat.toDigits_of_base_le (by decide) (Nat.le_of_not_lt hn)]
        rw [digits_append (hdigit _ (Nat.mod_lt n (by decide))) fun d hd => toDigits_digit hd]
        rw [hchar _ (Nat.mod_lt n (by decide)), ih (n / 10) (by omega), int32_digit]
        congr 1
        omega

/-- Where there are digits alone, `atoi` skips nothing and finds no sign. -/
theorem atoi_digits {w : Name} (h : ∀ c ∈ w, '0' ≤ c ∧ c ≤ '9') : atoi w = digits 0 w := by
  cases w with
  | nil => rfl
  | cons c cs =>
      have hc := h c (List.mem_cons_self ..)
      have hne : ∀ {d : Char}, ¬ ('0' ≤ d ∧ d ≤ '9') → c ≠ d := fun h heq => h (heq ▸ hc)
      have hblank : ¬ (c = ' ' ∨ c = '\t') := by
        rintro (h | h)
        · exact hne (by decide) h
        · exact hne (by decide) h
      unfold atoi
      rw [List.dropWhile_cons_of_neg (by simpa using hblank)]
      split
      · exact absurd (List.cons.inj ‹_›).1 (hne (by decide))
      · exact absurd (List.cons.inj ‹_›).1 (hne (by decide))
      · rfl

/-- A literal in the text is converted to an `int`. -/
theorem atoi_toDigits (n : Nat) : atoi (Nat.toDigits 10 n) = int32 n := by
  rw [atoi_digits fun c hc => toDigits_digit hc, digits_toDigits]

/-- The `int` that is in the node, and the literal. -/
theorem literal_value (n : Nat) :
    (BitVec.ofInt 64 (atoi (Nat.toDigits 10 n))).toInt = n ↔ n < 2 ^ 31 := by
  have hlow := le_int32 n
  have hhigh := int32_lt n
  have hlong : (int32 n).bmod (2 ^ 64) = int32 n := Int.bmod_eq_of_le (by omega) (by omega)
  rw [atoi_toDigits, BitVec.toInt_ofInt, hlong]
  constructor
  · intro h
    omega
  · intro h
    exact int32_same (by omega) (by omega)

theorem denotes_nodeAt (s : Parser) : ∀ (e : BinExpr) (i : Nat),
    Denotes s e (nodeAt s i e) ↔ ∀ n ∈ e.literals, n < 2 ^ 31 := by
  intro e
  induction e with
  | num n =>
      intro i
      constructor
      · intro h m hm
        rw [List.mem_singleton.mp hm]
        cases h with
        | num hv => exact (literal_value n).mp hv
      · exact fun h => Denotes.num ((literal_value n).mpr (h n (List.mem_singleton_self n)))
  | var x => exact fun i => ⟨fun _ m hm => absurd hm List.not_mem_nil, fun _ => Denotes.var⟩
  | bin op l r ihl ihr =>
      intro i
      constructor
      · intro h m hm
        cases h with
        | bin hl hr =>
            rcases List.mem_append.mp hm with hm | hm
            · exact (ihl _).mp hl m hm
            · exact (ihr _).mp hr m hm
      · intro h
        exact Denotes.bin ((ihl _).mpr fun m hm => h m (List.mem_append_left _ hm))
          ((ihr _).mpr fun m hm => h m (List.mem_append_right _ hm))

/-! ### From the text to the tree -/

deriving instance DecidableEq for Token

theorem op_spelt (op : BinOp) : Spelt op.token.type op.token.name :=
  spelt_symbol op.token (by cases op <;> decide)

theorem wrap_spelt (b : Bool) {ts : List Token} (h : ∀ t ∈ ts, Spelt t.type t.name) :
    ∀ t ∈ wrap b ts, Spelt t.type t.name := by
  cases b with
  | false => exact h
  | true =>
      intro t ht
      rcases List.mem_cons.mp ht with rfl | ht
      · exact spelt_symbol _ (by decide)
      · rcases List.mem_append.mp ht with ht | ht
        · exact h t ht
        · rw [List.mem_singleton.mp ht]
          exact spelt_symbol _ (by decide)

theorem print_spelt : ∀ e : BinExpr, ∀ t ∈ e.print, Spelt t.type t.name := by
  intro e
  induction e with
  | num n =>
      intro t ht
      rw [List.mem_singleton.mp ht]
      exact spelt_number Nat.toDigits_ne_nil fun c hc => decide_eq_true (toDigits_digit hc)
  | var x =>
      obtain ⟨x, ⟨c, cs, rfl, hc, hcs⟩, hx⟩ := x
      intro t ht
      rw [List.mem_singleton.mp ht]
      have hspelt := spelt_word hc hcs
      rw [hx] at hspelt
      exact hspelt
  | bin op l r ihl ihr =>
      intro t ht
      rcases List.mem_append.mp ht with ht | ht
      · exact wrap_spelt _ ihl t ht
      · rcases List.mem_cons.mp ht with rfl | ht
        · exact op_spelt op
        · exact wrap_spelt _ ihr t ht

/-- The text of the expression, with a semicolon behind it. -/
def source (e : BinExpr) : List Token := e.print ++ [⟨';'.toNat, [';']⟩]

/-- The parser in front of a text. -/
def reading (s : Parser) (text : Name) (lts : List LexToken) : Parser :=
  { s with tokens := texts text lts, tp1 := 0 }

/-- Written, lexed and parsed, the expression is the same tree, and the parser stands at the
semicolon. -/
def ParsesBack (s : Parser) (e : BinExpr) : Prop :=
  ∃ lts node, init_lexer (spell e.source) = some lts ∧ Denotes s e node ∧
    ∀ n, lts.length ≤ n → ∃ t, (calls n).parse_expression 0 (reading s (spell e.source) lts) = .ok node t ∧
      tokenAt t t.tp1 = ⟨';'.toNat, [';']⟩ ∧ t.tp1 = e.print.length

theorem nodeAt_reading (s : Parser) (text : Name) (lts : List LexToken) : ∀ (e : BinExpr) (i : Nat),
    nodeAt (reading s text lts) i e = nodeAt s i e := by
  intro e
  induction e with
  | num n => exact fun _ => rfl
  | var x => exact fun _ => rfl
  | bin op l r ihl ihr =>
      intro i
      rw [nodeAt, nodeAt, ihl, ihr]

/-- Whatever the literals, the parser comes to the semicolon, with the tree of the text. -/
theorem source_read (s : Parser) (e : BinExpr) : ∃ lts, init_lexer (spell e.source) = some lts ∧
    ∀ n, lts.length ≤ n → (calls n).parse_expression 0 (reading s (spell e.source) lts) =
      .ok (nodeAt s 0 e) ((reading s (spell e.source) lts).goto e.print.length) ∧
      tokenAt (reading s (spell e.source) lts) e.print.length = ⟨';'.toNat, [';']⟩ := by
  have hspelt : ∀ t ∈ e.source, Spelt t.type t.name := by
    intro t ht
    rcases List.mem_append.mp ht with ht | ht
    · exact print_spelt e t ht
    · rw [List.mem_singleton.mp ht]
      exact spelt_symbol _ (by decide)
  obtain ⟨lts, hlex, htexts⟩ := init_lexer_spell hspelt
  have hlen : lts.length = e.print.length + 2 := by
    have := congrArg List.length htexts
    simpa [texts, source] using this
  refine ⟨lts, hlex, fun n hn => ?_⟩
  have hstands : Stands (reading s (spell e.source) lts) 0 e.source :=
    stands_of htexts
  obtain ⟨hprint, hsemi, -⟩ := stands_append.mp hstands
  rw [Nat.zero_add] at hsemi
  have hnext : tokenType (reading s (spell e.source) lts) (0 + e.print.length) = ';'.toNat := by
    rw [Nat.zero_add]
    exact congrArg Token.type hsemi
  have hread := (climbs _ e).expression hprint (level_bounds e).1 (by rw [hnext]; decide)
    (n := n) (by omega)
  rw [Nat.zero_add, nodeAt_reading] at hread
  exact ⟨hread, hsemi⟩

end BinExpr

end Eke
