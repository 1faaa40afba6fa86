/-
The `for` statement.

The parser makes a block of it: the init, and behind it a loop whose body ends with the post
expression.  The loop is set as what comes behind the first node of the init.  So it is what
comes behind the whole init just if the init is a single node, and that is said of the text:
the init declares no second variable, which shows in a comma outside of all parentheses and
braces.
-/
import Eke.Compiler.Trees
import Eke.Compiler.Coverage

namespace Eke

/-! ### What the statement means -/

/-- The nodes of a chain, each without its link. -/
def Node.nodes : Node → List Node
  | .null => []
  | .mk t k ix nx => .mk t k ix .null :: nx.nodes

/-- The statements of a block; what is no block is a list of its own. -/
def Node.statements : Node → List Node
  | .mk _ (.block b) _ _ => b.nodes
  | n => n.nodes

/-- A block that runs the init in order, then a loop on the condition over the statements of the
body and the post expression. -/
def ForMeans (init cond post body tree : Node) : Prop :=
  ∃ list loop inner token isfor, tree.kind? = some (.block list) ∧
    list.nodes = init.nodes ++ [.mk token (.while_ cond loop isfor) .null .null] ∧
      loop.kind? = some (.block inner) ∧ inner.nodes = body.statements ++ [post]

theorem nodes_append : ∀ n m : Node, (n.append m).nodes = n.nodes ++ m.nodes
  | .null, _ => rfl
  | .mk t k ix nx, m => congrArg (Node.mk t k ix .null :: ·) (nodes_append nx m)

theorem nodes_single {n : Node} (h : n.isSome) (hnext : n.next = .null) : n.nodes = [n] := by
  cases n with
  | null => cases h
  | mk t k ix nx =>
      obtain rfl : nx = .null := hnext
      rfl

theorem nodes_nil {n : Node} (h : n.nodes = []) : n = .null := by
  cases n with
  | null => rfl
  | mk t k ix nx => cases h

/-- Behind the body's statements comes the post expression, be the body a block or not. -/
theorem forBody_inner {body post : Node} (hpost : post.isSome) (hnext : post.next = .null) :
    ∃ inner, (Parser.forBody body post).kind? = some (.block inner) ∧
      inner.nodes = body.statements ++ [post] := by
  have hnodes : ∀ b : Node, (b.append post).nodes = b.nodes ++ [post] := by
    intro b
    rw [nodes_append, nodes_single hpost hnext]
  unfold Parser.forBody
  split
  · exact ⟨_, rfl, hnodes _⟩
  · refine ⟨_, rfl, ?_⟩
    rw [hnodes]
    unfold Node.statements
    split
    · rename_i hblock
      exact absurd rfl (hblock _ _ _ _)
    · rfl

/-- The loop comes behind the init if the init is one node. -/
theorem forMeans_iff {init cond post body : Node} {token : Int} (hinit : init.isSome)
    (hpost : post.isSome) (hnext : post.next = .null) :
    ForMeans init cond post body (.mk 0 (.block (init.setNext
      (.mk token (.while_ cond (Parser.forBody body post) 1) .null .null))) .null .null) ↔
        init.next = .null := by
  cases init with
  | null => cases hinit
  | mk t k ix nx =>
      constructor
      · intro h
        obtain ⟨list, loop, inner, token', isfor, htree, hlist, -, -⟩ := h
        cases htree
        have hlen := congrArg List.length hlist
        simp only [Node.setNext, Node.nodes, List.length_append, List.length_cons, List.length_nil] at hlen
        show nx = .null
        exact nodes_nil (List.length_eq_zero_iff.mp (by omega))
      · intro h
        obtain rfl : nx = .null := h
        obtain ⟨inner, hkind, hinner⟩ := forBody_inner hpost hnext
        exact ⟨_, _, inner, token, 1, rfl, rfl, hkind, hinner⟩

/-- One node, with nothing behind it. -/
def Single (n : Node) : Prop := n.isSome ∧ n.next = .null

theorem IsExpression.single {n : Node} (h : IsExpression n) : Single n := by
  cases n with
  | null => exact h.elim
  | mk t k ix nx => exact ⟨rfl, h.2.2⟩

namespace Parser

open Prog

/-! ### Parentheses, braces and commas of the text -/

/-- The text from the next token on. -/
def rest (s : Parser) : List Token := s.tokens.drop s.tp1

/-- With `d` parentheses and braces open: outside of all of them a comma comes, and no semicolon
in front of it. -/
def listed : Nat → List Token → Bool
  | _, [] => false
  | d, t :: ts =>
      if t.type = '('.toNat ∨ t.type = '{'.toNat then listed (d + 1) ts
      else if t.type = ')'.toNat ∨ t.type = '}'.toNat then listed (d - 1) ts
      else if d = 0 ∧ t.type = ','.toNat then true
      else if d = 0 ∧ t.type = ';'.toNat then false
      else listed d ts

/-- With `i` open the text is as with `j` open later on. -/
def Nests (i j : Nat) (s t : Parser) : Prop := ∀ d, listed (d + i) (rest s) = listed (d + j) (rest t)

/-- A token that is part of an expression and opens and closes nothing. -/
structure Plain (t : Int) : Prop where
  opens : ¬ (t = '('.toNat ∨ t = '{'.toNat)
  closes : ¬ (t = ')'.toNat ∨ t = '}'.toNat)
  comma : t ≠ ','.toNat
  semicolon : t ≠ ';'.toNat

variable {α β γ : Type} {r : Calls} {s t u s' : Parser} {tok : Token} {i j k : Nat}

theorem Nests.refl (s : Parser) : Nests i i s s := fun _ => rfl

theorem Nests.trans (h : Nests i j s t) (h' : Nests j k t u) : Nests i k s u :=
  fun d => (h d).trans (h' d)

theorem Nests.deeper (h : Nests 0 0 s t) : Nests i i s t := fun d => h (d + i)

theorem Same.rest (h : Same s t) : rest t = rest s := by
  unfold Parser.rest
  rw [h.tokens, h.tp1]

theorem Same.nests (h : Same s t) : Nests i i s t := fun d => congrArg (listed (d + i)) h.rest.symm

theorem rest_cons (h : tokenType s s.tp1 ≠ T_EOF) :
    rest s = tokenAt s s.tp1 :: rest { s with tp1 := s.tp1 + 1 } := by
  obtain ⟨hlt, hget⟩ := List.getElem?_eq_some_iff.mp (token_there h)
  unfold rest
  rw [List.drop_eq_getElem_cons hlt, hget]

/-- A token that is read is the first one of what was left. -/
theorem advance_rest (h : advance s = .ok tok t) :
    rest s = tok :: rest t ∧ tok = tokenAt s s.tp1 := by
  rw [advance_eq] at h
  split at h
  · rename_i hend
    cases h
    exact ⟨rest_cons hend, rfl⟩
  · cases h

theorem consume_rest {type : Int} (htype : type ≠ T_EOF) (h : consume type s = .ok tok t) :
    rest s = tok :: rest t ∧ tok.type = type := by
  rw [consume_eq] at h
  split at h
  · rename_i heq
    cases h
    exact ⟨rest_cons (by rw [← heq]; exact htype), heq.symm⟩
  · cases h

/-! ### One token -/

theorem nests_plain (h : rest s = tok :: rest t) (htok : Plain tok.type) : Nests 0 0 s t := by
  intro d
  rw [h, listed, if_neg htok.opens, if_neg htok.closes, if_neg fun h => htok.comma h.2,
    if_neg fun h => htok.semicolon h.2]

theorem nests_open (h : rest s = tok :: rest t) (htok : tok.type = '('.toNat ∨ tok.type = '{'.toNat) :
    Nests 0 1 s t := by
  intro d
  rw [h, listed, if_pos htok]

theorem nests_close (h : rest s = tok :: rest t) (htok : tok.type = ')'.toNat ∨ tok.type = '}'.toNat) :
    Nests 1 0 s t := by
  intro d
  have hopen : ¬ (tok.type = '('.toNat ∨ tok.type = '{'.toNat) := by
    rcases htok with h | h <;> rw [h] <;> decide
  rw [h, listed, if_neg hopen, if_pos htok]
  rfl

/-- A comma between parentheses. -/
theorem nests_comma (h : rest s = tok :: rest t) (htok : tok.type = ','.toNat) : Nests 1 1 s t := by
  intro d
  rw [h, listed, htok, if_neg (by decide), if_neg (by decide), if_neg fun h => Nat.succ_ne_zero d h.1,
    if_neg fun h => Nat.succ_ne_zero d h.1]

theorem consume_plain {type : Int} (hend : type ≠ T_EOF) (htype : Plain type) :
    Keeps (Nests 0 0) (consume type) := by
  intro s tok t h
  obtain ⟨hrest, rfl⟩ := consume_rest hend h
  exact nests_plain hrest htype

theorem consume_open {type : Int} (htype : type = '('.toNat ∨ type = '{'.toNat) :
    Keeps (Nests 0 1) (consume type) := by
  intro s tok t h
  have hend : type ≠ T_EOF := by rcases htype with rfl | rfl <;> decide
  obtain ⟨hrest, rfl⟩ := consume_rest hend h
  exact nests_open hrest htype

theorem consume_close {type : Int} (htype : type = ')'.toNat ∨ type = '}'.toNat) :
    Keeps (Nests 1 0) (consume type) := by
  intro s tok t h
  have hend : type ≠ T_EOF := by rcases htype with rfl | rfl <;> decide
  obtain ⟨hrest, rfl⟩ := consume_rest hend h
  exact nests_close hrest htype

theorem consume_identifier : Keeps (Nests 0 0) (consume T_IDENTIFIER) :=
  consume_plain (by decide) ⟨by decide, by decide, by decide, by decide⟩

theorem consume_number : Keeps (Nests 0 0) (consume T_INT) :=
  consume_plain (by decide) ⟨by decide, by decide, by decide, by decide⟩

theorem consume_star : Keeps (Nests 0 0) (consume '*'.toNat) :=
  consume_plain (by decide) ⟨by decide, by decide, by decide, by decide⟩

theorem consume_bracket : Keeps (Nests 0 0) (consume '['.toNat) :=
  consume_plain (by decide) ⟨by decide, by decide, by decide, by decide⟩

theorem consume_bracket' : Keeps (Nests 0 0) (consume ']'.toNat) :=
  consume_plain (by decide) ⟨by decide, by decide, by decide, by decide⟩

theorem nests_bind {x : P α} {f : α → P β} (hx : Keeps (Nests i j) x)
    (hf : ∀ a, Keeps (Nests j k) (f a)) : Keeps (Nests i k) (x >>= f) := by
  intro s b s' h
  obtain ⟨a, t, ha, hb⟩ := bind_ok_iff.mp h
  exact (hx s a t ha).trans (hf a t b s' hb)

/-- What a program keeps, of one run. -/
theorem related {R : Parser → Parser → Prop} {x : P α} {a : α} (hx : Keeps R x) (h : x s = .ok a t) : R s t :=
  hx s a t h

theorem nests_exit (code : Int) : Keeps (Nests i j) (exit code : P α) := keeps_exit code

theorem nests_undefined : Keeps (Nests i j) (undefined : P α) := keeps_undefined

theorem nests_same {x : P α} (h : Keeps Same x) : Keeps (Nests i i) x := h.mono fun _ _ => Same.nests

theorem nests_pure (a : α) : Keeps (Nests i i) (pure a : P α) := nests_same (Same.rules.pure a)

theorem nests_gets (f : Parser → α) : Keeps (Nests i i) (gets f : P α) :=
  nests_same (gets_same f)

theorem nests_cycle {body : β → P (β ⊕ γ)} (hbody : ∀ b, Keeps (Nests i i) (body b)) (n : Nat) (b : β) :
    Keeps (Nests i i) (cycle n body b) :=
  keeps_cycle (fun _ _ _ h h' => h.trans h') hbody n b

theorem skip_comma : Keeps (Nests 1 1) (skip ','.toNat) := by
  intro s a t h
  obtain ⟨b, u, hb, h⟩ := bind_ok_iff.mp h
  obtain ⟨-, rfl⟩ := Out.ok.inj hb
  split at h
  · obtain ⟨tok, u, htok, h⟩ := bind_ok_iff.mp h
    cases h
    obtain ⟨hrest, htype⟩ := consume_rest (by decide) htok
    exact nests_comma hrest htype
  · cases h
    exact Nests.refl s

/-! ### Expressions -/

/-- The parser calls itself so that an expression closes what it opens. -/
def Nested (r : Calls) : Prop := ∀ p, 0 ≤ p → Keeps (Nests 0 0) (r.parse_expression p)

theorem Nested.inner (hr : Nested r) : Keeps (Nests i i) (r.parse_expression 0) :=
  (hr 0 (Int.le_refl 0)).mono fun _ _ => Nests.deeper

/-- What binds at all neither opens nor closes anything, but for the parenthesis of a call. -/
theorem operator_plain {type : Int} (h : 0 < get_precedence type) (hcall : type ≠ '('.toNat) : Plain type := by
  have hother : ∀ c : Int, get_precedence c = 0 → type ≠ c := by
    intro c hc heq
    rw [heq, hc] at h
    exact absurd h (Int.lt_irrefl 0)
  refine ⟨fun hopen => ?_, fun hclose => ?_, hother _ (by decide), hother _ (by decide)⟩
  · exact hopen.elim hcall (hother _ (by decide))
  · exact hclose.elim (hother _ (by decide)) (hother _ (by decide))

theorem precedence_nonneg (type : Int) : 0 ≤ get_precedence type := by
  unfold get_precedence
  repeat' split
  all_goals decide

theorem callArgs_nests (hr : Nested r) : Keeps (Nests 1 1) (callArgs r) := by
  refine nests_cycle (fun args => nests_bind (nests_gets _) fun b => ?_) _ _
  split
  · exact nests_pure _
  · exact nests_bind hr.inner fun a => nests_bind skip_comma fun _ => nests_pure _

/-- A part behind an operator. -/
theorem led_nests (hr : Nested r) (left : Node) {n : Node} (hop : 0 < get_precedence (tokenType s s.tp1))
    (h : led r left s = .ok n t) : Nests 0 0 s t := by
  obtain ⟨op, u, hu, h⟩ := bind_ok_iff.mp h
  obtain ⟨hrest, hop'⟩ := advance_rest hu
  have htype : tokenType s s.tp1 = op.type := by
    rw [hop']
    rfl
  rw [htype] at hop
  split at h
  · rename_i hcall
    refine (nests_open hrest (.inl hcall)).trans (related ?_ h)
    exact nests_bind (nests_same (tokenName_same _)) fun name => nests_bind (callArgs_nests hr) fun args =>
      nests_bind (consume_close (.inl rfl)) fun _ => nests_pure _
  rename_i hcall
  refine (nests_plain hrest (operator_plain hop hcall)).trans (related ?_ h)
  split
  · refine nests_bind consume_identifier fun memtok => nests_bind (nests_same (structOf_same _)) fun id => ?_
    split
    · exact nests_exit 1
    refine nests_bind (nests_same (structEntry_same _)) fun e => ?_
    split
    · exact nests_undefined
    split
    · exact nests_bind (nests_same (find_struct_same _)) fun _ => nests_pure _
    · exact nests_pure _
  split
  · exact nests_pure _
  split
  · exact nests_pure _
  · exact nests_bind (hr _ (precedence_nonneg _)) fun right => nests_pure _

theorem indexes_nests (hr : Nested r) : Keeps (Nests 0 0) (indexes r) := by
  refine nests_cycle (fun es => nests_bind (nests_gets _) fun b => ?_) _ _
  split
  · exact nests_bind consume_bracket fun _ => nests_bind hr.inner fun e =>
      nests_bind consume_bracket' fun _ => nests_pure _
  · exact nests_pure _

/-- A token that opens and closes nothing, and what comes behind it. -/
theorem advance_nests {f : Token → P α} {a : α} (htype : Plain (tokenType s s.tp1))
    (hf : ∀ tok, Keeps (Nests 0 0) (f tok)) (h : (advance >>= f) s = .ok a t) : Nests 0 0 s t := by
  obtain ⟨tok, u, hu, h⟩ := bind_ok_iff.mp h
  obtain ⟨hrest, htok⟩ := advance_rest hu
  have hplain : Plain tok.type := by
    rw [htok]
    exact htype
  exact (nests_plain hrest hplain).trans (hf tok u a t h)

theorem identifier_nests (hr : Nested r) {n : Node} (htype : tokenType s s.tp1 = T_IDENTIFIER)
    (h : identifier r tok s = .ok n t) : Nests 0 0 s t := by
  obtain ⟨id, u, hu, h⟩ := bind_ok_iff.mp h
  obtain ⟨-, rfl⟩ := Out.ok.inj hu
  obtain ⟨kind, v, hv, hrest⟩ := bind_ok_iff.mp h
  have hsame : v = s := by
    split at hv
    · cases hv
      rfl
    · unfold symbol at hv
      split at hv
      · cases hv
        rfl
      · cases hv
  subst hsame
  obtain ⟨i, w, hw, hrest⟩ := bind_ok_iff.mp hrest
  obtain ⟨-, rfl⟩ := Out.ok.inj hw
  refine advance_nests ?_ (fun _ => nests_bind (indexes_nests hr) fun es => nests_pure _) hrest
  rw [htype]
  exact ⟨by decide, by decide, by decide, by decide⟩

theorem nud_nests (hr : Nested r) : Keeps (Nests 0 0) (nud r) := by
  intro s n t h
  obtain ⟨tok, u, hu, h⟩ := bind_ok_iff.mp h
  obtain ⟨rfl, rfl⟩ := Out.ok.inj hu
  have hplain : ∀ {type : Int}, (tokenAt s s.tp1).type = type → Plain type → Plain (tokenType s s.tp1) := by
    intro type htype h
    show Plain (tokenAt s s.tp1).type
    rw [htype]
    exact h
  have hprefix : ∀ {p : Int} {f : Int → Node → Node}, 0 ≤ p → Plain (tokenType s s.tp1) →
      (do
        let _ ← advance
        let token_id ← lastToken
        let e ← r.parse_expression p
        pure (f token_id e) : P Node) s = .ok n t → Nests 0 0 s t := by
    intro p f hp htype h
    exact advance_nests htype (fun _ => nests_bind (nests_gets _) fun i =>
      nests_bind (hr p hp) fun e => nests_pure _) h
  have hleaf : ∀ {f : Int → Node}, Plain (tokenType s s.tp1) →
      (do
        let token_id ← thisToken
        let _ ← advance
        pure (f token_id) : P Node) s = .ok n t → Nests 0 0 s t := by
    intro f htype h
    obtain ⟨i, v, hv, h⟩ := bind_ok_iff.mp h
    obtain ⟨-, rfl⟩ := Out.ok.inj hv
    exact advance_nests htype (fun _ => nests_pure _) h
  rcases ite_ok h with ⟨htype, h⟩ | ⟨-, h⟩
  · exact hprefix (by decide) (hplain htype ⟨by decide, by decide, by decide, by decide⟩) h
  rcases ite_ok h with ⟨htype, h⟩ | ⟨-, h⟩
  · refine advance_nests (hplain htype ⟨by decide, by decide, by decide, by decide⟩) (fun _ => ?_) h
    exact nests_bind (hr 90 (by decide)) fun e => nests_pure _
  rcases ite_ok h with ⟨htype, h⟩ | ⟨-, h⟩
  · refine hprefix (f := fun i e => .mk i (if (tokenAt s s.tp1).type = T_INC then .preinc e else .predec e)
      .null .null) (by decide) ?_ h
    rcases htype with htype | htype
    · exact hplain htype ⟨by decide, by decide, by decide, by decide⟩
    · exact hplain htype ⟨by decide, by decide, by decide, by decide⟩
  rcases ite_ok h with ⟨htype, h⟩ | ⟨-, h⟩
  · exact hprefix (by decide) (hplain htype ⟨by decide, by decide, by decide, by decide⟩) h
  rcases ite_ok h with ⟨htype, h⟩ | ⟨-, h⟩
  · exact hleaf (hplain htype ⟨by decide, by decide, by decide, by decide⟩) h
  rcases ite_ok h with ⟨htype, h⟩ | ⟨-, h⟩
  · obtain ⟨tok, v, hv, h⟩ := bind_ok_iff.mp h
    obtain ⟨hrest, htok⟩ := advance_rest hv
    refine (nests_open hrest (.inl ?_)).trans (related ?_ h)
    · rw [htok]
      exact htype
    · exact nests_bind hr.inner fun e => nests_bind (consume_close (.inl rfl)) fun _ => nests_pure _
  rcases ite_ok h with ⟨htype, h⟩ | ⟨-, h⟩
  · exact hleaf (hplain htype ⟨by decide, by decide, by decide, by decide⟩) h
  rcases ite_ok h with ⟨htype, h⟩ | ⟨-, h⟩
  · exact identifier_nests hr htype h
  rcases ite_ok h with ⟨htype, h⟩ | ⟨-, h⟩
  · rcases htype with htype | htype
    · exact hleaf (hplain htype ⟨by decide, by decide, by decide, by decide⟩) h
    · exact hleaf (hplain htype ⟨by decide, by decide, by decide, by decide⟩) h
  · cases h

theorem parse_expression_nests (hr : Nested r) {p : Int} (hp : 0 ≤ p) :
    Keeps (Nests 0 0) (parse_expression r p) := by
  refine nests_bind (nud_nests hr) fun left => nests_cycle (fun left => ?_) _ _
  intro s c t h
  obtain ⟨tok, u, hu, h⟩ := bind_ok_iff.mp h
  obtain ⟨rfl, rfl⟩ := Out.ok.inj hu
  split at h
  · rename_i hop
    obtain ⟨left', v, hv, h⟩ := bind_ok_iff.mp h
    cases h
    exact led_nests hr left (Int.lt_of_le_of_lt hp hop) hv
  · cases h
    exact Nests.refl _

theorem calls_nested : ∀ n, Nested (calls n) := by
  intro n
  induction n with
  | zero => exact fun _ _ => keeps_more
  | succ n ih => exact fun p hp => parse_expression_nests ih hp

/-! ### Declarations -/

theorem elements_nests (hr : Nested r) : Keeps (Nests 1 1) (elements r) := by
  refine nests_cycle (fun es => nests_bind (nests_gets _) fun b => ?_) _ _
  split
  · exact nests_pure _
  · exact nests_bind hr.inner fun e => nests_bind skip_comma fun _ => nests_pure _

theorem initializer_nests (hr : Nested r) (id te : Int) : Keeps (Nests 0 0) (initializer r id te) := by
  intro s v t h
  obtain ⟨tok, u, hu, h⟩ := bind_ok_iff.mp h
  obtain ⟨rfl, rfl⟩ := Out.ok.inj hu
  split at h
  · rename_i htype
    refine advance_nests ?_ (fun _ => nests_bind (nests_gets _) fun b => ?_) h
    · rw [show tokenType s s.tp1 = '='.toNat from htype]
      exact ⟨by decide, by decide, by decide, by decide⟩
    split
    · refine nests_bind (consume_open (.inr rfl)) fun _ => nests_bind (elements_nests hr) fun es =>
        nests_bind (nests_same (oldSymbol_same _ _ _)) fun dim => nests_bind ?_ fun te =>
          nests_bind (consume_close (.inr rfl)) fun _ => nests_pure _
      split
      · exact nests_bind (nests_same (setDim_same _ _ _)) fun _ => nests_pure _
      · exact nests_pure _
    · exact nests_bind hr.inner fun e => nests_pure _
  · cases h
    exact Nests.refl s

theorem localBounds_nests (id : Int) : Keeps (Nests 0 0) (localBounds r id) := by
  refine nests_cycle (fun b => nests_bind (nests_gets _) fun m => ?_) _ _
  split
  · refine nests_bind consume_bracket fun _ => nests_bind (nests_gets _) fun m => ?_
    split
    · split
      · exact nests_exit 0
      · exact nests_bind consume_bracket' fun _ => nests_bind (nests_same (setDim_same _ _ _)) fun _ =>
          nests_pure _
    · exact nests_bind consume_number fun t => nests_bind consume_bracket' fun _ =>
        nests_bind (nests_same (setDim_same _ _ _)) fun _ => nests_pure _
  · exact nests_pure _

theorem stars_nests : Keeps (Nests 0 0) (stars r) := by
  refine nests_cycle (fun count => nests_bind (nests_gets _) fun b => ?_) _ _
  split
  · exact nests_bind consume_star fun _ => nests_pure _
  · exact nests_pure _

theorem typeStruct_nests (tok : Token) : Keeps (Nests 0 0) (typeStruct tok) := by
  unfold typeStruct
  split
  · refine nests_bind (j := 0) ?_ fun rt => nests_bind (nests_same (find_struct_same _)) fun id => ?_
    · split
      · exact consume_identifier
      · exact nests_pure tok
    split
    · exact nests_exit 1
    · exact nests_bind (nests_same (structEntry_same _)) fun e => nests_pure _
  · exact nests_pure _

theorem declarator_nests (hr : Nested r) (base_type struct_id base_size curroffset : Int) :
    Keeps (Nests 0 0) (declarator r base_type struct_id base_size curroffset) :=
  nests_bind stars_nests fun _ => nests_bind consume_identifier fun _ => nests_bind (nests_gets _) fun _ =>
    nests_bind (nests_gets _) fun _ => nests_bind (nests_gets _) fun _ =>
      nests_bind (nests_same (add_to_symtab_same _ _ _ _ _ _)) fun _ => nests_bind (nests_gets _) fun _ =>
        nests_bind (localBounds_nests _) fun _ => nests_bind (initializer_nests hr _ _) fun _ =>
          nests_bind (nests_same (modifySymbol_same _ _)) fun _ => nests_pure _

/-- Behind a declarator the text says at once whether another one follows. -/
theorem more_declarators_listed {b : Bool} (h : more_declarators s = .ok b t) : listed 0 (rest s) = b := by
  obtain ⟨m, u, hu, h⟩ := bind_ok_iff.mp h
  obtain ⟨rfl, rfl⟩ := Out.ok.inj hu
  split at h
  · obtain ⟨tok, u, hu, h⟩ := bind_ok_iff.mp h
    cases h
    obtain ⟨hrest, htype⟩ := consume_rest (by decide) hu
    rw [hrest, listed, htype]
    rfl
  · obtain ⟨tok, u, hu, h⟩ := bind_ok_iff.mp h
    obtain ⟨rfl, rfl⟩ := Out.ok.inj hu
    split at h
    · rename_i htype
      cases h
      have htype' : tokenType s s.tp1 = ';'.toNat := htype
      rw [rest_cons (by rw [htype']; decide), listed, htype]
      rfl
    · cases h

/-! ### What a statement is returned as -/

/-- A declaration with more than one variable comes next. -/
def DeclaresMore (s : Parser) : Prop :=
  (∃ t, is_type (tokenType s s.tp1) s = .ok true t) ∧ listed 0 (rest s) = true

theorem type_plain {type : Int} (h : is_type type s = .ok true t) : Plain type := by
  unfold is_type at h
  split at h
  · rename_i hword
    rcases hword with rfl | rfl | rfl | rfl <;> exact ⟨by decide, by decide, by decide, by decide⟩
  split at h
  · rename_i hid
    rw [hid]
    exact ⟨by decide, by decide, by decide, by decide⟩
  · cases h

theorem is_type_rest {type : Int} {b : Bool} (h : is_type type s = .ok b t) : rest t = rest s := by
  obtain ⟨hstate, -⟩ := is_type_ok h
  rcases hstate with rfl | rfl
  · rfl
  · rfl

theorem declarator_single (base_type struct_id base_size curroffset : Int) :
    Yields (fun d => Single d.1) (declarator r base_type struct_id base_size curroffset) :=
  yields_then fun _ => yields_then fun _ => yields_then fun _ => yields_then fun _ => yields_then fun _ =>
    yields_then fun _ => yields_then fun _ => yields_then fun _ => yields_then fun _ => yields_then fun _ =>
      yields_pure ⟨rfl, rfl⟩

/-- One round of the loop over the declarators of a list. -/
def declarationRound (r : Calls) (base_type struct_id : Int) (d : List Node × Int × Int) :
    P ((List Node × Int × Int) ⊕ (List Node × Int)) := do
  let (n, base_size, curroffset) ← declarator r base_type struct_id d.2.1 d.2.2
  if ← more_declarators then pure (.inl (d.1 ++ [n], base_size, curroffset))
  else pure (.inr (d.1 ++ [n], curroffset))

/-- The nodes of the declarators: all are single, and there are at least two of them. -/
def Several (ns : List Node) : Prop := ∃ a b ms, ns = a :: b :: ms ∧ Single a ∧ Single b

theorem Several.next {ns : List Node} (h : Several ns) : (chain ns).isSome ∧ (chain ns).next ≠ .null := by
  obtain ⟨a, b, ms, rfl, ha, hb⟩ := h
  cases a with
  | null => cases ha.1
  | mk t k ix nx =>
      cases b with
      | null => cases hb.1
      | mk t' k' ix' nx' => exact ⟨rfl, nofun⟩

theorem chain_single {a : Node} (h : Single a) : (chain [a]).isSome ∧ (chain [a]).next = .null := by
  cases a with
  | null => cases h.1
  | mk t k ix nx => exact ⟨rfl, rfl⟩

theorem declarationRound_yields {base_type struct_id : Int} {a : Node} (ha : Single a)
    (d : List Node × Int × Int) (hd : ∃ ms, d.1 = a :: ms ∧ ∀ b ∈ ms, Single b) :
    Yields (Sum.elim (fun d => ∃ ms, d.1 = a :: ms ∧ ∀ b ∈ ms, Single b) fun d => Several d.1)
      (declarationRound r base_type struct_id d) := by
  obtain ⟨ms, hms, hall⟩ := hd
  refine yields_bind (declarator_single _ _ _ _) fun n hn => yields_then fun m => ?_
  rw [hms]
  split
  · refine yields_pure ⟨ms ++ [n.1], rfl, ?_⟩
    simpa [or_imp, forall_and] using ⟨hall, hn⟩
  · apply yields_pure
    cases ms with
    | nil => exact ⟨a, n.1, [], rfl, ha, hn⟩
    | cons b ms => exact ⟨a, b, ms ++ [n.1], rfl, ha, hall b (List.mem_cons_self ..)⟩

/-- The first declarator decides. -/
theorem declarators_next (hr : Nested r) {base_type struct_id base_size : Int} {d : List Node × Int} (n : Nat)
    (h : cycle n (declarationRound r base_type struct_id) ([], base_size, 0) s = .ok d t) :
    (chain d.1).isSome ∧ ((chain d.1).next = .null ↔ listed 0 (rest s) = false) := by
  cases n with
  | zero => cases h
  | succ n =>
      obtain ⟨c, u, hc, h⟩ := bind_ok_iff.mp h
      obtain ⟨a, v, ha, hc⟩ := bind_ok_iff.mp hc
      have hsingle : Single a.1 := declarator_single _ _ _ _ _ _ _ ha
      obtain ⟨b, w, hb, hc⟩ := bind_ok_iff.mp hc
      have hlisted : listed 0 (rest s) = b := by
        rw [← more_declarators_listed hb]
        exact declarator_nests hr _ _ _ _ _ _ _ ha 0
      rw [hlisted]
      cases b with
      | false =>
          cases hc
          cases h
          obtain ⟨hsome, hnext⟩ := chain_single hsingle
          exact ⟨hsome, fun _ => rfl, fun _ => hnext⟩
      | true =>
          cases hc
          have hround := @declarationRound_yields r base_type struct_id a.1 hsingle
          have hyields := yields_cycle hround n ([a.1], a.2.1, a.2.2) ⟨[], rfl, by simp⟩
          obtain ⟨hsome, hnext⟩ := (hyields _ _ _ h).next
          exact ⟨hsome, fun hnull => absurd hnull hnext, nofun⟩

/-- A declaration is one node for each variable. -/
theorem parse_declaration_next (hr : Nested r) {n : Node} (h : parse_declaration r s = .ok n t) :
    n.isSome ∧ (n.next = .null ↔ listed 0 (rest s) = false) := by
  obtain ⟨tok, u, hu, h⟩ := bind_ok_iff.mp h
  obtain ⟨rfl, rfl⟩ := Out.ok.inj hu
  obtain ⟨b, u, hu, h⟩ := bind_ok_iff.mp h
  split at h
  case isFalse => cases h
  rename_i hb
  subst hb
  obtain ⟨rt, v, hv, h⟩ := bind_ok_iff.mp h
  obtain ⟨hrest, hrt⟩ := advance_rest hv
  have hplain : Plain rt.type := by
    rw [hrt]
    refine type_plain (s := s) (t := u) ?_
    rw [show (tokenAt u u.tp1).type = (tokenAt s s.tp1).type from (is_type_same hu).2]
    exact hu
  obtain ⟨ty, w, hw, h⟩ := bind_ok_iff.mp h
  have hhead : listed 0 (rest s) = listed 0 (rest w) := by
    rw [← is_type_rest hu]
    exact ((nests_plain hrest hplain).trans (related (typeStruct_nests rt) hw)) 0
  obtain ⟨d, x, hx, h⟩ := bind_ok_iff.mp h
  obtain ⟨_, y, hy, h⟩ := bind_ok_iff.mp h
  obtain ⟨_, z, hz, h⟩ := bind_ok_iff.mp h
  cases h
  rw [hhead]
  exact declarators_next hr r.fuel hx

theorem assignment_single (left : Node) (token_id : Int) : Yields Single (assignment r left token_id) :=
  yields_then fun _ => yields_then fun _ => yields_then fun _ => yields_then fun _ => yields_then fun _ =>
    yields_pure ⟨rfl, rfl⟩

/-- What is no declaration is one node. -/
theorem other_single (hb : Builds r) (t : Int) : Yields Single
    (if t = '{'.toNat then parse_block r
    else if t = K_IF then parse_if_stmt r
    else if t = K_WHILE then parse_while r
    else if t = K_BREAK then do
      let _ ← consume K_BREAK
      let _ ← consume ';'.toNat
      pure (.mk 0 .break_ .null .null)
    else if t = K_CONTINUE then do
      let _ ← consume K_CONTINUE
      let _ ← consume ';'.toNat
      pure (.mk 0 .continue_ .null .null)
    else if t = K_FOR then parse_for r
    else if t = K_RETURN then parse_return r
    else do
      let left ← r.parse_expression 0
      let t ← peek
      if t.type = '='.toNat then do
        let n ← assignment r left (baseVar left).token_id
        let _ ← consume ';'.toNat
        pure n
      else if t.type = ';'.toNat then do
        let _ ← advance
        pure left
      else exit 1 : P Node) := by
  have hone : ∀ {i : Int} {k : Kind}, Single (.mk i k .null .null) := ⟨rfl, rfl⟩
  refine yields_ite ?_ (yields_ite ?_ (yields_ite ?_ (yields_ite ?_ (yields_ite ?_
    (yields_ite ?_ (yields_ite ?_ ?_))))))
  · exact yields_then fun _ => yields_then fun _ => yields_then fun _ => yields_pure hone
  · exact yields_then fun _ => yields_then fun _ => yields_then fun _ => yields_then fun _ =>
      yields_then fun _ => yields_then fun _ => yields_then fun _ => yields_then fun _ => yields_pure hone
  · exact yields_then fun _ => yields_then fun _ => yields_then fun _ => yields_then fun _ =>
      yields_then fun _ => yields_then fun _ => yields_pure hone
  · exact yields_then fun _ => yields_then fun _ => yields_pure hone
  · exact yields_then fun _ => yields_then fun _ => yields_pure hone
  · exact yields_then fun _ => yields_then fun _ => yields_then fun _ => yields_then fun _ =>
      yields_then fun _ => yields_then fun _ => yields_then fun _ => yields_then fun _ => yields_then fun _ =>
        yields_then fun _ => yields_then fun _ => yields_pure hone
  · exact yields_then fun _ => yields_then fun _ => yields_then fun _ => yields_then fun _ => yields_pure hone
  · refine yields_bind (hb.expression 0) fun left hleft => yields_then fun t => ?_
    refine yields_ite ?_ (yields_ite ?_ (yields_exit 1))
    · exact yields_bind (assignment_single left _) fun n hn => yields_then fun _ => yields_pure hn
    · exact yields_then fun _ => yields_pure hleft.single

/-- A declaration is the only statement that may be more than one node. -/
theorem parse_statement_next (hr : Nested r) (hb : Builds r) {n : Node} (h : parse_statement r s = .ok n t) :
    n.isSome ∧ (n.next = .null ↔ ¬ DeclaresMore s) := by
  obtain ⟨tok, u, hu, h⟩ := bind_ok_iff.mp h
  obtain ⟨rfl, rfl⟩ := Out.ok.inj hu
  obtain ⟨b, u, hu, h⟩ := bind_ok_iff.mp h
  cases b with
  | true =>
      obtain ⟨hsome, hnext⟩ := parse_declaration_next hr h
      refine ⟨hsome, hnext.trans ?_⟩
      rw [is_type_rest hu, ← Bool.not_eq_true]
      exact not_congr ⟨fun hmore => ⟨⟨u, hu⟩, hmore⟩, And.right⟩
  | false =>
      have hnone : ¬ DeclaresMore s := by
        intro hmore
        obtain ⟨⟨v, hv⟩, -⟩ := hmore
        cases hu.symm.trans hv
      rw [if_neg Bool.false_ne_true] at h
      have hsingle : Single n := other_single hb _ _ _ _ h
      exact ⟨hsingle.1, fun _ => hnone, fun _ => hsingle.2⟩

/-! ### The `for` statement -/

/-- The post expression. -/
def forPost (r : Calls) : P Node := do
  let left ← r.parse_expression 0
  let t ← peek
  if t.type = '='.toNat then assignment r left left.token_id else pure left

/-- The parts of a `for` statement, read in the order of the text. -/
def ForReads (r : Calls) (s : Parser) (init cond post body : Node) (s' : Parser) : Prop :=
  ∃ k o c e t₁ t₂ t₃ t₄ t₅ t₆ t₇, consume K_FOR s = .ok k t₁ ∧ consume '('.toNat t₁ = .ok o t₂ ∧
    r.parse_statement t₂ = .ok init t₃ ∧ r.parse_expression 0 t₃ = .ok cond t₄ ∧
      consume ';'.toNat t₄ = .ok c t₅ ∧ forPost r t₅ = .ok post t₆ ∧ consume ')'.toNat t₆ = .ok e t₇ ∧
        r.parse_statement t₇ = .ok body s'

/-- The init, behind `for` and the parenthesis, declares more than one variable. -/
def InitDeclaresMore (s : Parser) : Prop := DeclaresMore { s with tp1 := s.tp1 + 2 }

theorem forPost_single (hb : Builds r) : Yields Single (forPost r) := by
  refine yields_bind (hb.expression 0) fun left hleft => yields_then fun t => ?_
  split
  · exact assignment_single left _
  · exact yields_pure hleft.single

theorem parse_for_eq (r : Calls) :
    parse_for r = (do
      let _ ← consume K_FOR
      let for_idx ← lastToken
      let _ ← consume '('.toNat
      let init ← r.parse_statement
      let cond ← r.parse_expression 0
      let _ ← consume ';'.toNat
      let post_expr ← forPost r
      let _ ← consume ')'.toNat
      let body ← r.parse_statement
      pure (.mk 0 (.block (init.setNext
        (.mk for_idx (.while_ cond (forBody body post_expr) 1) .null .null))) .null .null)) := by
  unfold parse_for forPost
  simp only [bind_assoc]

/-- Every `for` statement has its parts. -/
theorem parse_for_reads {tree : Node} (h : parse_for r s = .ok tree s') :
    ∃ init cond post body, ForReads r s init cond post body s' := by
  rw [parse_for_eq] at h
  obtain ⟨k, t₁, h₁, h⟩ := bind_ok_iff.mp h
  obtain ⟨token, u, hu, h⟩ := bind_ok_iff.mp h
  obtain ⟨-, rfl⟩ := Out.ok.inj hu
  obtain ⟨o, t₂, h₂, h⟩ := bind_ok_iff.mp h
  obtain ⟨init, t₃, h₃, h⟩ := bind_ok_iff.mp h
  obtain ⟨cond, t₄, h₄, h⟩ := bind_ok_iff.mp h
  obtain ⟨c, t₅, h₅, h⟩ := bind_ok_iff.mp h
  obtain ⟨post, t₆, h₆, h⟩ := bind_ok_iff.mp h
  obtain ⟨e, t₇, h₇, h⟩ := bind_ok_iff.mp h
  obtain ⟨body, t₈, h₈, h⟩ := bind_ok_iff.mp h
  cases h
  exact ⟨init, cond, post, body, k, o, c, e, t₁, t₂, t₃, t₄, t₅, t₆, t₇, h₁, h₂, h₃, h₄, h₅, h₆, h₇, h₈⟩

/-- The parts make the tree. -/
theorem ForReads.tree {init cond post body : Node} (h : ForReads r s init cond post body s') :
    ∃ token, parse_for r s = .ok (.mk 0 (.block (init.setNext
      (.mk token (.while_ cond (forBody body post) 1) .null .null))) .null .null) s' := by
  obtain ⟨k, o, c, e, t₁, t₂, t₃, t₄, t₅, t₆, t₇, h₁, h₂, h₃, h₄, h₅, h₆, h₇, h₈⟩ := h
  refine ⟨(t₁.tp1 : Int) - 1, ?_⟩
  rw [parse_for_eq, bind_of_ok h₁]
  refine (bind_of_ok (t := t₁) rfl).trans ?_
  rw [bind_of_ok h₂, bind_of_ok h₃, bind_of_ok h₄, bind_of_ok h₅, bind_of_ok h₆, bind_of_ok h₇,
    bind_of_ok h₈]
  rfl

theorem ForReads.init_next {n : Nat} {init cond post body : Node}
    (h : ForReads (calls n) s init cond post body s') :
    init.isSome ∧ (init.next = .null ↔ ¬ InitDeclaresMore s) := by
  obtain ⟨k, o, c, e, t₁, t₂, t₃, t₄, t₅, t₆, t₇, h₁, h₂, h₃, -⟩ := h
  obtain rfl := consume_ok h₁
  obtain rfl := consume_ok h₂
  cases n with
  | zero => cases h₃
  | succ n => exact parse_statement_next (calls_nested n) (calls_build n) h₃

theorem ForReads.post_single {n : Nat} {init cond post body : Node}
    (h : ForReads (calls n) s init cond post body s') : Single post := by
  obtain ⟨k, o, c, e, t₁, t₂, t₃, t₄, t₅, t₆, t₇, h₁, h₂, h₃, h₄, h₅, h₆, -⟩ := h
  exact forPost_single (calls_build n) t₅ post t₆ h₆

/-- The tree of a `for` statement means what its parts say just if the init declares at most one
variable. -/
theorem parse_for_means {n : Nat} {tree : Node} (h : parse_for (calls n) s = .ok tree s') :
    (∃ init cond post body, ForReads (calls n) s init cond post body s') ∧
      ∀ init cond post body, ForReads (calls n) s init cond post body s' →
        (ForMeans init cond post body tree ↔ ¬ InitDeclaresMore s) := by
  refine ⟨parse_for_reads h, fun init cond post body hreads => ?_⟩
  obtain ⟨token, htree⟩ := hreads.tree
  obtain ⟨hinit, hnext⟩ := hreads.init_next
  obtain ⟨hpost, hpostnext⟩ := hreads.post_single
  obtain ⟨rfl, -⟩ := Out.ok.inj (h.symm.trans htree)
  exact (forMeans_iff hinit hpost hpostnext).trans hnext

/-- `for (int i = 0; 0; 0) { }` -/
def forOne : List Token :=
  [⟨K_FOR, "for".toList⟩, ⟨'('.toNat, "(".toList⟩, ⟨K_INT, "int".toList⟩, ⟨T_IDENTIFIER, "i".toList⟩,
    ⟨'='.toNat, "=".toList⟩, ⟨T_INT, "0".toList⟩, ⟨';'.toNat, ";".toList⟩, ⟨T_INT, "0".toList⟩,
    ⟨';'.toNat, ";".toList⟩, ⟨T_INT, "0".toList⟩, ⟨')'.toNat, ")".toList⟩, ⟨'{'.toNat, ['{']⟩,
    ⟨'}'.toNat, ['}']⟩]

/-- `for (int i, j; 0; 0) { }` -/
def forTwo : List Token :=
  [⟨K_FOR, "for".toList⟩, ⟨'('.toNat, "(".toList⟩, ⟨K_INT, "int".toList⟩, ⟨T_IDENTIFIER, "i".toList⟩,
    ⟨','.toNat, ",".toList⟩, ⟨T_IDENTIFIER, "j".toList⟩, ⟨';'.toNat, ";".toList⟩, ⟨T_INT, "0".toList⟩,
    ⟨';'.toNat, ";".toList⟩, ⟨T_INT, "0".toList⟩, ⟨')'.toNat, ")".toList⟩, ⟨'{'.toNat, ['{']⟩,
    ⟨'}'.toNat, ['}']⟩]

theorem parse_for_means_one : ∃ tree s', parse_for (calls 5) { start with tokens := forOne } = .ok tree s' ∧
    ∃ init cond post body, ForReads (calls 5) { start with tokens := forOne } init cond post body s' ∧
      ForMeans init cond post body tree := by
  obtain ⟨tree, s', h⟩ : ∃ tree s', parse_for (calls 5) { start with tokens := forOne } = .ok tree s' :=
    ⟨_, _, rfl⟩
  obtain ⟨⟨init, cond, post, body, hreads⟩, hmeans⟩ := parse_for_means h
  refine ⟨tree, s', h, init, cond, post, body, hreads, (hmeans init cond post body hreads).mpr ?_⟩
  intro hmore
  have hlisted : listed 0 (rest { start with tokens := forOne, tp1 := 2 }) = true := hmore.2
  revert hlisted
  decide

/-- The second variable of `for (int i, j; 0; 0) { }` is not in the tree. -/
theorem second_dropped : ∃ tree s' init cond post body,
    parse_for (calls 5) { start with tokens := forTwo } = .ok tree s' ∧
      ForReads (calls 5) { start with tokens := forTwo } init cond post body s' ∧
        init.nodes.length = 2 ∧ ¬ ForMeans init cond post body tree := by
  refine ⟨_, _, _, _, _, _, rfl, ⟨_, _, _, _, _, _, _, _, _, _, _, rfl, rfl, rfl, rfl, rfl, rfl, rfl, rfl⟩, rfl, ?_⟩
  intro hmeans
  obtain ⟨list, loop, inner, token, isfor, htree, hlist, -, -⟩ := hmeans
  cases htree
  cases hlist

end Parser

end Eke
