/-
Reading along a text.

What the parser does with enough fuel does not depend on the fuel: `Reads` is about the places of
the text in front of a program and behind it, and it is composed along binds and loops.  Postfix
forms and what is written inside them stand in the text in the same way.
-/
import Eke.Compiler.Precedence
import Eke.Compiler.MoreFuel

namespace Eke

open Prog

namespace Parser

variable {s : Parser} {i j k n m : Nat} {x : Name} {e left left' : Node} {p : Int} {α β γ : Type}

/-! ### Reading with enough fuel -/

/-- The parser at a place of the text. -/
def spot (s : Parser) (i : Nat) (leans : Bool) : Parser := { s with tp1 := i, leans := leans }

/-- With enough fuel, the program goes from one place of the text to another one. -/
def Reads (s : Parser) (f : Nat → P α) (i k : Nat) (a : α) : Prop :=
  ∃ N, ∀ n, N ≤ n → ∀ b, ∃ b', f n (spot s i b) = .ok a (spot s k b')

theorem Reads.bind {f : Nat → P α} {g : Nat → α → P β} {a : α} {c : β} (hf : Reads s f i j a)
    (hg : Reads s (fun n => g n a) j k c) : Reads s (fun n => f n >>= g n) i k c := by
  obtain ⟨N, hN⟩ := hf
  obtain ⟨M, hM⟩ := hg
  refine ⟨max N M, fun n hn b => ?_⟩
  obtain ⟨b₁, h₁⟩ := hN n (Nat.le_trans (Nat.le_max_left N M) hn) b
  obtain ⟨b₂, h₂⟩ := hM n (Nat.le_trans (Nat.le_max_right N M) hn) b₁
  exact ⟨b₂, (bind_of_ok h₁).trans h₂⟩

theorem Reads.of_ok {f : Nat → P α} {a : α} (h : ∀ n b, ∃ b', f n (spot s i b) = .ok a (spot s k b')) :
    Reads s f i k a := ⟨0, fun n _ b => h n b⟩

theorem reads_pure (a : α) : Reads s (fun _ => (pure a : P α)) i i a := .of_ok fun _ b => ⟨b, rfl⟩

/-- A round of a loop that goes on. -/
theorem Reads.cycle_next {f : Nat → β → P (β ⊕ γ)} {b b' : β} {c : γ}
    (hmono : ∀ n m, n ≤ m → ∀ b, Under (f n b) (f m b)) (hbody : Reads s (fun n => f n b) i j (.inl b'))
    (hrest : Reads s (fun n => cycle n (f n) b') j k c) : Reads s (fun n => cycle n (f n) b) i k c := by
  obtain ⟨N, hN⟩ := hbody
  obtain ⟨M, hM⟩ := hrest
  refine ⟨max N M + 1, fun n hn l => ?_⟩
  obtain ⟨n, rfl⟩ : ∃ n', n = n' + 1 := ⟨n - 1, by omega⟩
  obtain ⟨l₁, h₁⟩ := hN (n + 1) (by omega) l
  obtain ⟨l₂, h₂⟩ := hM n (by omega) l₁
  refine ⟨l₂, (Prog.cycle_next h₁).trans ?_⟩
  have hunder := under_cycle (hmono n (n + 1) (Nat.le_succ n)) (Nat.le_refl n) b'
  exact (hunder.eq fun t ht => by cases h₂.symm.trans ht).trans h₂

/-- The last round of a loop. -/
theorem Reads.cycle_stop {f : Nat → β → P (β ⊕ γ)} {b : β} {c : γ}
    (hbody : Reads s (fun n => f n b) i k (.inr c)) : Reads s (fun n => cycle n (f n) b) i k c := by
  obtain ⟨N, hN⟩ := hbody
  refine ⟨N + 1, fun n hn l => ?_⟩
  obtain ⟨n, rfl⟩ : ∃ n', n = n' + 1 := ⟨n - 1, by omega⟩
  obtain ⟨l₁, h₁⟩ := hN (n + 1) (by omega) l
  exact ⟨l₁, Prog.cycle_stop h₁⟩

/-- An expression stands at a place of the text. -/
def Expr (s : Parser) (i : Nat) (e : Node) (k : Nat) : Prop :=
  Reads s (fun n => (calls n).parse_expression 0) i k e

/-! ### Tokens -/

theorem reads_match (ty : Int) : Reads s (fun _ => match_ ty) i i (decide (ty = tokenType s i)) :=
  .of_ok fun _ b => ⟨b, rfl⟩

theorem reads_advance (h : tokenType s i ≠ T_EOF) : Reads s (fun _ => advance) i (i + 1) (tokenAt s i) :=
  .of_ok fun _ b => ⟨b, advance_token (s := spot s i b) h⟩

theorem reads_consume {ty : Int} (h : tokenType s i = ty) :
    Reads s (fun _ => consume ty) i (i + 1) (tokenAt s i) :=
  .of_ok fun _ b => ⟨b, consume_token (s := spot s i b) h⟩

theorem reads_skip {ty : Int} (h : tokenType s i = ty) : Reads s (fun _ => skip ty) i (i + 1) () := by
  have hmatch := reads_match (s := s) (i := i) ty
  rw [decide_eq_true h.symm] at hmatch
  exact hmatch.bind ((reads_consume h).bind (reads_pure ()))

theorem reads_no_skip (ty : Int) (h : tokenType s i ≠ ty) : Reads s (fun _ => skip ty) i i () := by
  have hmatch := reads_match (s := s) (i := i) ty
  rw [decide_eq_false (Ne.symm h)] at hmatch
  exact hmatch.bind (reads_pure ())

theorem reads_expression {left : Node} (hnud : Reads s (fun n => nud (calls n)) i j left)
    (hclimb : Reads s (fun n => climb (calls n) p n left) j k e) :
    Reads s (fun n => (calls n).parse_expression p) i k e := by
  obtain ⟨N, hN⟩ := hnud.bind (g := fun n left => climb (calls n) p n left) hclimb
  refine ⟨N + 1, fun n hn b => ?_⟩
  obtain ⟨n, rfl⟩ : ∃ n', n = n' + 1 := ⟨n - 1, by omega⟩
  obtain ⟨b', h⟩ := hN n (by omega) b
  exact ⟨b', (congrFun (calls_expression n p) _).trans h⟩

/-- No expression starts with a closing bracket. -/
theorem Expr.starts (h : Expr s i e k) : tokenType s i ≠ ')'.toNat := by
  intro hclose
  obtain ⟨N, hN⟩ := h
  obtain ⟨b', h⟩ := hN (N + 1) (Nat.le_succ N) false
  have hexit : nud (calls N) (spot s i false) = .exit 1 (spot s i false) := by
    have hpeek : peek (spot s i false) = .ok (tokenAt s i) (spot s i false) := rfl
    have htype : (tokenAt s i).type = ')'.toNat := hclose
    unfold nud
    rw [bind_of_ok hpeek]
    simp only [htype]
    rfl
  obtain ⟨left, t, hnud, -⟩ := bind_ok_iff.mp ((congrFun (calls_expression N 0) _).symm.trans h)
  rw [hexit] at hnud
  cases hnud

/-! ### Tables -/

theorem index_lt (hname : tokenAt s i = ⟨T_IDENTIFIER, x⟩) : i < s.tokens.length := by
  refine Nat.lt_of_not_le fun hle => ?_
  unfold tokenAt at hname
  rw [List.getElem?_eq_none hle] at hname
  have htype : T_EOF = T_IDENTIFIER := congrArg Token.type hname
  exact absurd htype (by decide)

theorem reads_tokenName (hname : tokenAt s i = ⟨T_IDENTIFIER, x⟩) :
    Reads s (fun _ => tokenName i) j j x := by
  refine .of_ok fun _ b => ⟨b, ?_⟩
  have hle : (i : Int) ≤ s.tokens.length := Int.ofNat_le.mpr (Nat.le_of_lt (index_lt hname))
  show (if (i : Int) ≤ s.tokens.length then gets fun s => (tokenAt s (i : Int).toNat).name
    else undefined : P Name) (spot s j b) = _
  rw [if_pos hle]
  exact congrArg (fun t : Token => Out.ok t.name (spot s j b)) hname

theorem reads_structEntry {struct_id : Int} (h : s.old < struct_id) :
    Reads s (fun _ => structEntry struct_id) j j (s.struct_table struct_id.toNat) := by
  refine .of_ok fun _ b => ⟨true, ?_⟩
  have hentry : leaning (fun u => if u.old < struct_id then some (u.struct_table struct_id.toNat) else none)
      (spot s j b) = .ok (some (s.struct_table struct_id.toNat)) (spot s j true) :=
    congrArg (fun e => Out.ok e (spot s j true)) (if_pos h)
  exact (bind_of_ok hentry).trans rfl

theorem structAmong_spot (name : Name) (b : Bool) : ∀ is : List Nat,
    structAmong (spot s j b) name is = structAmong s name is := by
  intro is
  induction is with
  | nil => rfl
  | cons i is ih =>
      unfold structAmong
      rw [ih]
      rfl

theorem reads_find_struct {name : Name} {id : Int}
    (h : structAmong s name (List.range (s.st_count + 1).toNat) = some id) :
    Reads s (fun _ => find_struct name) j j id := by
  refine .of_ok fun _ b => ⟨true, ?_⟩
  have hfound : leaning (fun u => structAmong u name (List.range (u.st_count + 1).toNat)) (spot s j b) =
      .ok (some id) (spot s j true) :=
    congrArg (fun found => Out.ok found (spot s j true)) ((structAmong_spot name b _).trans h)
  exact (bind_of_ok hfound).trans rfl

/-! ### The loop over the operators -/

def climbRound (r : Calls) (p : Int) (left : Node) : P (Node ⊕ Node) := do
  let t ← peek
  if get_precedence t.type > p then do
    let left' ← led r left
    pure (.inl left')
  else pure (.inr left)

theorem climbRound_under (p : Int) (n m : Nat) (h : n ≤ m) (left : Node) :
    Under (climbRound (calls n) p left) (climbRound (calls m) p left) := by
  refine under_then fun t => ?_
  split
  · exact under_first (led_under (calls_under h) left)
  · exact .refl _

theorem reads_climb_stop (h : get_precedence (tokenType s i) ≤ p) :
    Reads s (fun n => climb (calls n) p n left) i i left := by
  refine .cycle_stop (f := fun n => climbRound (calls n) p) (.of_ok fun n b => ⟨b, ?_⟩)
  show (if get_precedence (tokenType s i) > p then _ else _ : P (Node ⊕ Node)) (spot s i b) = _
  rw [if_neg (Int.not_lt.mpr h)]
  rfl

theorem reads_climb_next (hp : p < get_precedence (tokenType s i))
    (hled : Reads s (fun n => led (calls n) left) i j left')
    (hrest : Reads s (fun n => climb (calls n) p n left') j k e) :
    Reads s (fun n => climb (calls n) p n left) i k e := by
  refine .cycle_next (f := fun n => climbRound (calls n) p) (climbRound_under p) ?_ hrest
  obtain ⟨N, hN⟩ := hled.bind (g := fun _ left' => (pure (.inl left') : P (Node ⊕ Node))) (reads_pure _)
  refine ⟨N, fun n hn b => ?_⟩
  obtain ⟨b', h⟩ := hN n hn b
  refine ⟨b', ?_⟩
  show (if get_precedence (tokenType s i) > p then _ else _ : P (Node ⊕ Node)) (spot s i b) = _
  rw [if_pos hp]
  exact h

/-! ### What is written -/

/-- A postfix form, with the trees of the expressions in it. -/
inductive Form
  | call (args : List Node)
  | member (op : Int) (name : Name)
  | subscript (e : Node)
  | inc
  | dec

/-- Arguments, separated by commas, up to a closing parenthesis. -/
inductive Args (s : Parser) : Nat → List Node → Nat → Prop
  | none {i : Nat} : tokenType s i = ')'.toNat → Args s i [] i
  | last {i k : Nat} {a : Node} : Expr s i a k → tokenType s k = ')'.toNat → Args s i [a] k
  | more {i j k : Nat} {a a' : Node} {as : List Node} : Expr s i a j → tokenType s j = ','.toNat →
      Args s (j + 1) (a' :: as) k → Args s i (a :: a' :: as) k

/-- A postfix form stands at a place of the text. -/
inductive Written (s : Parser) : Nat → Form → Nat → Prop
  | call {i k : Nat} {args : List Node} : tokenType s i = '('.toNat → Args s (i + 1) args k →
      Written s i (.call args) (k + 1)
  | member {i : Nat} {op : Int} {m : Name} : op = '.'.toNat ∨ op = T_ARROW → tokenType s i = op →
      tokenAt s (i + 1) = ⟨T_IDENTIFIER, m⟩ → Written s i (.member op m) (i + 2)
  | subscript {i k : Nat} {e : Node} : tokenType s i = '['.toNat → Expr s (i + 1) e k →
      tokenType s k = ']'.toNat → Written s i (.subscript e) (k + 1)
  | inc {i : Nat} : tokenType s i = T_INC → Written s i .inc (i + 1)
  | dec {i : Nat} : tokenType s i = T_DEC → Written s i .dec (i + 1)

inductive Forms (s : Parser) : Nat → List Form → Nat → Prop
  | nil {i : Nat} : Forms s i [] i
  | cons {i j k : Nat} {f : Form} {fs : List Form} : Written s i f j → Forms s j fs k →
      Forms s i (f :: fs) k

/-! ### Arguments and indices -/

def argRound (r : Calls) (args : List Node) : P (List Node ⊕ List Node) := do
  if ← match_ ')'.toNat then pure (.inr args) else do
    let a ← r.parse_expression 0
    skip ','.toNat
    pure (.inl (args ++ [a]))

theorem callArgs_eq (r : Calls) : callArgs r = cycle r.fuel (argRound r) [] := rfl

theorem argRound_under (n m : Nat) (h : n ≤ m) (args : List Node) :
    Under (argRound (calls n) args) (argRound (calls m) args) := by
  refine under_then fun b => ?_
  split
  · exact .refl _
  · exact under_first ((calls_under h).expression 0)

theorem argRound_stop {args : List Node} (h : tokenType s i = ')'.toNat) :
    Reads s (fun n => argRound (calls n) args) i i (.inr args) := by
  have hmatch := reads_match (s := s) (i := i) ')'.toNat
  rw [decide_eq_true h.symm] at hmatch
  exact hmatch.bind (reads_pure _)

theorem argRound_next {args : List Node} {a : Node} (ha : Expr s i a j)
    (hskip : Reads s (fun _ => skip ','.toNat) j k ()) :
    Reads s (fun n => argRound (calls n) args) i k (.inl (args ++ [a])) := by
  have hmatch := reads_match (s := s) (i := i) ')'.toNat
  rw [decide_eq_false (Ne.symm ha.starts)] at hmatch
  exact hmatch.bind (ha.bind (hskip.bind (reads_pure _)))

theorem reads_args {as : List Node} (h : Args s i as k) :
    tokenType s k = ')'.toNat ∧
      ∀ args, Reads s (fun n => cycle n (argRound (calls n)) args) i k (args ++ as) := by
  induction h with
  | none hclose =>
      refine ⟨hclose, fun args => ?_⟩
      rw [List.append_nil]
      exact .cycle_stop (argRound_stop hclose)
  | last ha hclose =>
      refine ⟨hclose, fun args => ?_⟩
      have hskip := reads_no_skip ','.toNat fun h => absurd (hclose.symm.trans h) (by decide)
      exact .cycle_next argRound_under (argRound_next ha hskip) (.cycle_stop (argRound_stop hclose))
  | @more i j k a a' as ha hcomma _ ih =>
      refine ⟨ih.1, fun args => ?_⟩
      have hrest := ih.2 (args ++ [a])
      rw [List.append_assoc] at hrest
      exact .cycle_next argRound_under (argRound_next ha (reads_skip hcomma)) hrest

def indexRound (r : Calls) (es : List Node) : P (List Node ⊕ List Node) := do
  if ← match_ '['.toNat then do
    let _ ← consume '['.toNat
    let e ← r.parse_expression 0
    let _ ← consume ']'.toNat
    pure (.inl (es ++ [e]))
  else pure (.inr es)

theorem indexes_eq (r : Calls) : indexes r = cycle r.fuel (indexRound r) [] := rfl

theorem indexRound_under (n m : Nat) (h : n ≤ m) (es : List Node) :
    Under (indexRound (calls n) es) (indexRound (calls m) es) := by
  refine under_then fun b => ?_
  split
  · exact under_then fun _ => under_first ((calls_under h).expression 0)
  · exact .refl _

/-- The subscripts directly behind the identifier are its index expressions. -/
theorem reads_indexes : ∀ {es : List Node} {i : Nat} (acc : List Node),
    Forms s i (es.map Form.subscript) k → tokenType s k ≠ '['.toNat →
    Reads s (fun n => cycle n (indexRound (calls n)) acc) i k (acc ++ es) := by
  intro es
  induction es with
  | nil =>
      intro i acc h hend
      cases h
      have hmatch := reads_match (s := s) (i := k) '['.toNat
      rw [decide_eq_false (Ne.symm hend)] at hmatch
      rw [List.append_nil]
      exact .cycle_stop (hmatch.bind (reads_pure _))
  | cons e es ih =>
      intro i acc h hend
      cases h with
      | cons hform hforms =>
          cases hform with
          | subscript hopen he hclose =>
              have hmatch := reads_match (s := s) (i := i) '['.toNat
              rw [decide_eq_true hopen.symm] at hmatch
              have hrest := ih (acc ++ [e]) hforms hend
              rw [List.append_assoc] at hrest
              refine .cycle_next indexRound_under (hmatch.bind ((reads_consume hopen).bind ?_)) hrest
              exact he.bind ((reads_consume hclose).bind (reads_pure _))

theorem reads_name {es : List Node} (hname : tokenAt s i = ⟨T_IDENTIFIER, x⟩)
    (hes : Forms s (i + 1) (es.map Form.subscript) k) (hend : tokenType s k ≠ '['.toNat) :
    Reads s (fun n => nud (calls n)) i k (.mk i (nameKind s x) (indexChain es) .null) := by
  obtain ⟨N, hN⟩ := (reads_indexes [] hes hend).bind
    (g := fun _ es => (pure (.mk i (nameKind s x) (indexChain es) .null) : P Node)) (reads_pure _)
  refine ⟨N, fun n hn b => ?_⟩
  obtain ⟨b', h⟩ := hN n hn b
  refine ⟨b', ?_⟩
  have hnud := nud_name (r := calls n) (s := spot s i b) (congrArg Token.type hname)
  rw [indexes_eq, calls_fuel] at hnud
  rw [show tokenAt (spot s i b) (spot s i b).tp1 = tokenAt s i from rfl, hname] at hnud
  exact hnud.trans h

end Parser

end Eke
