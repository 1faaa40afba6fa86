/-
Postfix operators under prefix operators.

A prefix operator calls `parse_expression` with a binding power of its own, and what is behind the
operand goes to the innermost call whose power is below that of the postfix operators.  So it is
read by the operand if that call is the operand's own, and it is applied to the prefix operators
otherwise: `peel` goes down to the operand's call, `forms_read` follows its loop along the postfix
forms.
-/
import Eke.Compiler.Reading

namespace Eke

open Prog

namespace Parser

variable {s : Parser} {i j k n m : Nat} {x : Name} {e e' left left' : Node} {p : Int}

/-! ### The text -/

inductive Prefix
  | deref | neg | addr | inc | dec

def Prefix.token : Prefix → Token
  | deref => ⟨'*'.toNat, ['*']⟩
  | neg => ⟨'-'.toNat, ['-']⟩
  | addr => ⟨'&'.toNat, ['&']⟩
  | inc => ⟨T_INC, ['+', '+']⟩
  | dec => ⟨T_DEC, ['-', '-']⟩

/-- The node of a prefix operator: unary minus is a subtraction from 0. -/
def Prefix.kind : Prefix → Node → Kind
  | deref, e => .pointer e .null
  | neg, e => .bin '-'.toNat (.mk 0 (.int 0) .null .null) e
  | addr, e => .addr e
  | inc, e => .preinc e
  | dec, e => .predec e

/-- The text: prefix operators, an identifier and postfix forms, with nothing behind them that
could go on with the expression. -/
structure OperandText (s : Parser) (i : Nat) (ps : List Prefix) (x : Name) (fs : List Form) (k : Nat) :
    Prop where
  prefixes : Stands s i (ps.map Prefix.token)
  name : tokenAt s (i + ps.length) = ⟨T_IDENTIFIER, x⟩
  forms : Forms s (i + ps.length + 1) fs k
  stop : get_precedence (tokenType s k) ≤ 0

/-! ### What it means -/

/-- The struct of a variable, -1 if it is none. -/
def varStruct (s : Parser) (x : Name) : Int :=
  if symbolBelow s.symtab x s.sp = -1 then -1
  else (s.symtab (symbolBelow s.symtab x s.sp).toNat).struct_id

/-- Offset, type and struct of a member of a struct. -/
def memberOf (s : Parser) (struct_id : Int) (m : Name) : Option (Int × Int × Int) :=
  if struct_id = -1 ∨ struct_id ≤ s.old then none
  else
    let e := s.struct_table struct_id.toNat
    match memberNamed e m with
    | none => none
    | some i =>
        if e.mem_type i = K_STRUCT then
          (structAmong s (e.mem_struct_name i) (List.range (s.st_count + 1).toNat)).map
            fun id => (e.offset i, K_STRUCT, id)
        else some (e.offset i, e.mem_type i, -1)

/-- The struct an operand is in C; the code does not look through `++` and `--`. -/
def structIs (s : Parser) (x : Name) : Node → Int
  | .null => -1
  | .mk _ (.var _ _ _) _ _ => varStruct s x
  | .mk _ (.gvar _ _ _ _) _ _ => varStruct s x
  | .mk _ (.mem_access _ _ _ _ struct_id) _ _ => struct_id
  | .mk _ (.postinc e) _ _ => structIs s x e
  | .mk _ (.postdec e) _ _ => structIs s x e
  | .mk _ _ _ _ => -1

/-- The tree of a postfix form behind an operand.  A call has the name of what is called, so it is
the identifier itself, and only a variable has index expressions. -/
inductive Applied (s : Parser) (x : Name) : Node → Form → Node → Prop
  | call {t t' : Int} {args : List Node} : Applied s x (.mk t (nameKind s x) .null .null) (.call args)
      (.mk t' (.call x (argChain args) args.length) .null .null)
  | member {t op offset dt struct_id : Int} {m : Name} {e : Node} :
      memberOf s (structIs s x e) m = some (offset, dt, struct_id) →
      Applied s x e (.member op m) (.mk t (.mem_access e op offset dt struct_id) .null .null)
  | subscript {t t' : Int} {es : List Node} {e : Node} :
      Applied s x (.mk t (nameKind s x) (indexChain es) .null) (.subscript e)
        (.mk t' (nameKind s x) (indexChain (es ++ [e])) .null)
  | inc {t : Int} {e : Node} : Applied s x e .inc (.mk t (.postinc e) .null .null)
  | dec {t : Int} {e : Node} : Applied s x e .dec (.mk t (.postdec e) .null .null)

/-- The tree of several postfix forms, one behind another. -/
inductive Built (s : Parser) (x : Name) : Node → List Form → Node → Prop
  | nil {e : Node} : Built s x e [] e
  | cons {e e' e'' : Node} {f : Form} {fs : List Form} : Applied s x e f e' → Built s x e' fs e'' →
      Built s x e (f :: fs) e''

/-- The tree in which the prefix operators are applied to the whole postfix expression. -/
inductive Prefixed (s : Parser) (x : Name) (fs : List Form) : List Prefix → Node → Prop
  | operand {t : Int} {e : Node} : Built s x (.mk t (nameKind s x) .null .null) fs e → Prefixed s x fs [] e
  | op {t : Int} {p : Prefix} {ps : List Prefix} {e : Node} : Prefixed s x fs ps e →
      Prefixed s x fs (p :: ps) (.mk t (p.kind e) .null .null)

/-- The whole text is read, and the tree is the one it has in C. -/
def BindsTighter (s : Parser) (i : Nat) (ps : List Prefix) (x : Name) (fs : List Form) (k : Nat) : Prop :=
  ∃ e, Prefixed s x fs ps e ∧ Expr s i e k

/-! ### When it is so -/

/-- What a postfix expression is, as far as the next form depends on it. -/
inductive Stage
  | bare
  | indexed
  | within (struct_id : Int)
  | done

/-- The forms the parser makes the right node of, and what the operand is with them. -/
def Stage.next (s : Parser) (x : Name) : Stage → Form → Option Stage
  | bare, .call _ => some done
  | bare, .subscript _ => some indexed
  | indexed, .subscript _ => some indexed
  | bare, .member _ m => (memberOf s (varStruct s x) m).map fun d => within d.2.2
  | indexed, .member _ m => (memberOf s (varStruct s x) m).map fun d => within d.2.2
  | within id, .member _ m => (memberOf s id m).map fun d => within d.2.2
  | _, .inc => some done
  | _, .dec => some done
  | _, _ => none

/-- A call of the identifier or an access to it (subscripts, then members that are in their
structs), with `++` and `--` behind it. -/
def Fits (s : Parser) (x : Name) : Stage → List Form → Prop
  | _, [] => True
  | st, f :: fs => ∃ st', st.next s x f = some st' ∧ Fits s x st' fs

def Form.IsSubscript : Form → Prop
  | subscript _ => True
  | _ => False

/-- The prefix operator in front of the operand, if there is one, leaves it the postfix forms. -/
def LeavesPostfix (ps : List Prefix) : Prop :=
  ∀ p ∈ ps.getLast?, p = .inc ∨ p = .dec

/-! ### One postfix form -/

/-- The nodes an operand may have at a stage. -/
inductive Shape (s : Parser) (x : Name) : Stage → Node → Prop
  | bare {t : Int} : Shape s x .bare (.mk t (nameKind s x) .null .null)
  | indexed {t : Int} {e : Node} {es : List Node} :
      Shape s x .indexed (.mk t (nameKind s x) (indexChain (e :: es)) .null)
  | within {t op offset dt struct_id : Int} {e : Node} :
      Shape s x (.within struct_id) (.mk t (.mem_access e op offset dt struct_id) .null .null)
  | call {t : Int} {f : Name} {args : Node} {n : Int} : Shape s x .done (.mk t (.call f args n) .null .null)
  | postinc {t : Int} {e : Node} : Shape s x .done (.mk t (.postinc e) .null .null)
  | postdec {t : Int} {e : Node} : Shape s x .done (.mk t (.postdec e) .null .null)

/-- The struct in which the next member is looked up. -/
def Stage.struct (s : Parser) (x : Name) : Stage → Int
  | bare => varStruct s x
  | indexed => varStruct s x
  | within id => id
  | done => -1

theorem Written.precedence {f : Form} (h : Written s i f k) : get_precedence (tokenType s i) = 80 := by
  cases h with
  | call h => rw [h]; decide
  | member hop h => rw [h]; rcases hop with rfl | rfl <;> decide
  | subscript h => rw [h]; decide
  | inc h => rw [h]; decide
  | dec h => rw [h]; decide

theorem nameKind_cases (s : Parser) (x : Name) :
    (∃ dt offset, nameKind s x = .var dt offset .null) ∨
      ∃ name dt offset, nameKind s x = .gvar name dt offset .null := by
  unfold nameKind useKind
  split
  · exact .inl ⟨_, _, rfl⟩
  · split
    · exact .inr ⟨_, _, _, rfl⟩
    · exact .inl ⟨_, _, rfl⟩

/-- The struct of a name, as it is looked up behind it. -/
theorem reads_varStruct (x : Name) : Reads s (fun _ => do
    let symidx ← find_symbol x
    if symidx = -1 then pure (-1) else oldSymbol Record.ownStruct Record.struct_id symidx) j j
    (varStruct s x) := by
  refine .of_ok fun _ b => ?_
  show ∃ b', (if symbolBelow s.symtab x s.sp = -1 then pure (-1) else
    oldSymbol Record.ownStruct Record.struct_id (symbolBelow s.symtab x s.sp) : P Int) (spot s j b) = _
  unfold varStruct
  split
  · exact ⟨b, rfl⟩
  · rename_i hfound
    have hrange := (symbolBelow_range s.symtab x s.sp).resolve_left hfound
    have hsymbol : oldSymbol Record.ownStruct Record.struct_id (symbolBelow s.symtab x s.sp) (spot s j b) =
        .ok (s.symtab (symbolBelow s.symtab x s.sp).toNat).struct_id
          (if Record.ownStruct (s.symtab (symbolBelow s.symtab x s.sp).toNat) then spot s j b
            else { spot s j b with leans := true }) := if_pos hrange
    rw [hsymbol]
    split
    · exact ⟨b, rfl⟩
    · exact ⟨true, rfl⟩

theorem reads_structOf {st : Stage} (hshape : Shape s x st left) (hid : st ≠ .done → left.token_id = i)
    (hname : tokenAt s i = ⟨T_IDENTIFIER, x⟩) : Reads s (fun _ => structOf left) j j (st.struct s x) := by
  have hvar : ∀ {ix : Node} {t : Int}, t = i →
      Reads s (fun _ => structOf (.mk t (nameKind s x) ix .null)) j j (varStruct s x) := by
    intro ix t ht
    subst ht
    obtain ⟨dt, offset, hkind⟩ | ⟨name, dt, offset, hkind⟩ := nameKind_cases s x
    · rw [hkind]
      exact (reads_tokenName hname).bind (reads_varStruct x)
    · rw [hkind]
      exact (reads_tokenName hname).bind (reads_varStruct x)
  cases hshape with
  | bare => exact hvar (hid nofun)
  | indexed => exact hvar (hid nofun)
  | within => exact reads_pure _
  | call => exact reads_pure _
  | postinc => exact reads_pure _
  | postdec => exact reads_pure _

/-- The end of the branch of `led` for a member. -/
def memberAccess (left : Node) (op : Int) (m : Name) (structid : Int) : P Node :=
  if structid = -1 then exit 1 else do
    let e ← structEntry structid
    match memberNamed e m with
    | none => undefined
    | some memidx =>
        if e.mem_type memidx = K_STRUCT then do
          let struct_id ← find_struct (e.mem_struct_name memidx)
          pure (.mk left.token_id (.mem_access left op (e.offset memidx) K_STRUCT struct_id) .null .null)
        else
          pure (.mk left.token_id
            (.mem_access left op (e.offset memidx) (e.mem_type memidx) (-1)) .null .null)

theorem reads_memberAccess {struct_id op offset dt id : Int} {m : Name}
    (h : memberOf s struct_id m = some (offset, dt, id)) :
    Reads s (fun _ => memberAccess left op m struct_id) j j
      (.mk left.token_id (.mem_access left op offset dt id) .null .null) := by
  unfold memberOf at h
  split at h
  · cases h
  rename_i hfound
  obtain ⟨hsome, hnew⟩ := not_or.mp hfound
  simp only [memberAccess, if_neg hsome]
  refine (reads_structEntry (Int.not_le.mp hnew)).bind ?_
  dsimp only at h ⊢
  cases hm : memberNamed (s.struct_table struct_id.toNat) m with
  | none => rw [hm] at h; cases h
  | some k =>
      rw [hm] at h
      dsimp only at h ⊢
      split at h
      · rename_i hstruct
        simp only [if_pos hstruct]
        obtain ⟨id', hid, heq⟩ := Option.map_eq_some_iff.mp h
        cases heq
        exact (reads_find_struct hid).bind (reads_pure _)
      · rename_i hstruct
        simp only [if_neg hstruct]
        cases h
        exact reads_pure _

theorem reads_led_call {args : List Node} (hleft : left.token_id = i)
    (hname : tokenAt s i = ⟨T_IDENTIFIER, x⟩) (hopen : tokenType s j = '('.toNat)
    (hargs : Args s (j + 1) args k) : Reads s (fun n => led (calls n) left) j (k + 1)
      (.mk 0 (.call x (argChain args) args.length) .null .null) := by
  obtain ⟨hclose, hread⟩ := reads_args hargs
  have htype : (tokenAt s j).type = '('.toNat := hopen
  unfold led
  refine (reads_advance (by rw [hopen]; decide)).bind ?_
  simp only [htype, if_true, hleft]
  refine (reads_tokenName hname).bind (Reads.bind ?_ ((reads_consume hclose).bind (reads_pure _)))
  simp only [callArgs_eq, calls_fuel]
  exact hread []

theorem reads_led_member {st : Stage} {op offset dt id : Int} {m : Name} (hshape : Shape s x st left)
    (hid : st ≠ .done → left.token_id = i) (hname : tokenAt s i = ⟨T_IDENTIFIER, x⟩)
    (hop : op = '.'.toNat ∨ op = T_ARROW) (hj : tokenType s j = op)
    (hm : tokenAt s (j + 1) = ⟨T_IDENTIFIER, m⟩)
    (hfound : memberOf s (st.struct s x) m = some (offset, dt, id)) :
    Reads s (fun n => led (calls n) left) j (j + 2)
      (.mk left.token_id (.mem_access left op offset dt id) .null .null) := by
  have htype : (tokenAt s j).type = op := hj
  unfold led
  have hname' : (tokenAt s (j + 1)).name = m := congrArg Token.name hm
  have hcall : op ≠ '('.toNat := by rcases hop with rfl | rfl <;> decide
  refine (reads_advance (by rw [hj]; rcases hop with rfl | rfl <;> decide)).bind ?_
  simp only [htype, if_neg hcall, if_pos hop]
  refine (reads_consume (congrArg Token.type hm)).bind ?_
  simp only [hname']
  exact (reads_structOf hshape hid hname).bind (reads_memberAccess hfound)

theorem reads_led_inc (h : tokenType s j = T_INC) :
    Reads s (fun n => led (calls n) left) j (j + 1) (.mk T_INC (.postinc left) .null .null) := by
  have htype : (tokenAt s j).type = T_INC := h
  unfold led
  refine (reads_advance (by rw [h]; decide)).bind ?_
  simp only [htype]
  exact reads_pure _

theorem reads_led_dec (h : tokenType s j = T_DEC) :
    Reads s (fun n => led (calls n) left) j (j + 1) (.mk T_DEC (.postdec left) .null .null) := by
  have htype : (tokenAt s j).type = T_DEC := h
  unfold led
  refine (reads_advance (by rw [h]; decide)).bind ?_
  simp only [htype]
  exact reads_pure _

/-- Up to where it is done, the struct of the operand is what the code takes for it. -/
theorem Shape.struct {st : Stage} (h : Shape s x st e) (hdone : st ≠ .done) :
    structIs s x e = st.struct s x := by
  have hvar : ∀ {ix : Node} {t : Int}, structIs s x (.mk t (nameKind s x) ix .null) = varStruct s x := by
    intro ix t
    obtain ⟨dt, offset, hkind⟩ | ⟨name, dt, offset, hkind⟩ := nameKind_cases s x
    · rw [hkind]
      rfl
    · rw [hkind]
      rfl
  cases h with
  | bare => exact hvar
  | indexed => exact hvar
  | within => rfl
  | _ => exact absurd rfl hdone

/-- The loop's round for a postfix form makes the node of the form. -/
theorem reads_led {st st' : Stage} {f : Form} (hshape : Shape s x st left)
    (hid : st ≠ .done → left.token_id = i) (hname : tokenAt s i = ⟨T_IDENTIFIER, x⟩) (hf : Written s j f k)
    (hnext : st.next s x f = some st') (hsub : ¬ f.IsSubscript) :
    ∃ left', Reads s (fun n => led (calls n) left) j k left' ∧ Applied s x left f left' ∧
      Shape s x st' left' ∧ (st' ≠ .done → left'.token_id = i) := by
  cases hf with
  | call hopen hargs =>
      cases hshape with
      | bare =>
          cases hnext
          exact ⟨_, reads_led_call (hid nofun) hname hopen hargs, .call, .call, fun h => absurd rfl h⟩
      | _ => cases hnext
  | @member op m hop htype hmember =>
      have hmem : ∃ d, memberOf s (st.struct s x) m = some d ∧ st' = .within d.2.2 := by
        cases st with
        | done => cases hnext
        | _ =>
            obtain ⟨d, hd, hst⟩ := Option.map_eq_some_iff.mp hnext
            exact ⟨d, hd, hst.symm⟩
      obtain ⟨⟨offset, dt, id⟩, hd, rfl⟩ := hmem
      have hdone : st ≠ .done := by
        intro h
        rw [h] at hnext
        cases hnext
      have hread := reads_led_member hshape hid hname hop htype hmember hd
      refine ⟨_, hread, .member ?_, .within, fun _ => hid hdone⟩
      rw [hshape.struct hdone]
      exact hd
  | subscript => exact absurd trivial hsub
  | inc htype =>
      have hst : st' = .done := by cases st <;> exact (Option.some.inj hnext).symm
      subst hst
      exact ⟨_, reads_led_inc htype, .inc, .postinc, fun h => absurd rfl h⟩
  | dec htype =>
      have hst : st' = .done := by cases st <;> exact (Option.some.inj hnext).symm
      subst hst
      exact ⟨_, reads_led_dec htype, .dec, .postdec, fun h => absurd rfl h⟩

/-! ### The loop along the forms -/

/-- The loop reads the forms behind the identifier and its subscripts. -/
theorem forms_read (hname : tokenAt s i = ⟨T_IDENTIFIER, x⟩) (hp : p < 80)
    (hstop : get_precedence (tokenType s k) ≤ p) : ∀ {fs : List Form} {j : Nat} {st : Stage} {left : Node},
    Forms s j fs k → Fits s x st fs → (∀ f ∈ fs, ¬ f.IsSubscript) → Shape s x st left →
    (st ≠ .done → left.token_id = i) →
    ∃ e, Built s x left fs e ∧ Reads s (fun n => climb (calls n) p n left) j k e := by
  intro fs
  induction fs with
  | nil =>
      intro j st left hforms _ _ _ _
      cases hforms
      exact ⟨left, .nil, reads_climb_stop hstop⟩
  | cons f fs ih =>
      intro j st left hforms hfits hsub hshape hid
      cases hforms with
      | cons hf hfs =>
          obtain ⟨st', hnext, hfits⟩ := hfits
          obtain ⟨left', hled, happlied, hshape', hid'⟩ :=
            reads_led hshape hid hname hf hnext (hsub f (List.mem_cons_self ..))
          obtain ⟨e, hbuilt, hread⟩ :=
            ih hfs hfits (fun g hg => hsub g (List.mem_cons_of_mem _ hg)) hshape' hid'
          exact ⟨e, .cons happlied hbuilt, reads_climb_next (by rw [hf.precedence]; exact hp) hled hread⟩

/-! ### The operand -/

/-- The subscripts that come first, and the forms behind them. -/
theorem forms_split (fs : List Form) : ∃ (es : List Node) (rest : List Form),
    fs = es.map Form.subscript ++ rest ∧ ∀ f ∈ rest.head?, ¬ f.IsSubscript := by
  induction fs with
  | nil => exact ⟨[], [], rfl, fun _ h => by cases h⟩
  | cons f fs ih =>
      obtain ⟨es, rest, rfl, hrest⟩ := ih
      cases f with
      | subscript e => exact ⟨e :: es, rest, rfl, hrest⟩
      | _ => exact ⟨[], _, rfl, fun g hg => by cases hg; exact id⟩

theorem forms_append {gs : List Form} : ∀ {fs : List Form} {i : Nat}, Forms s i (fs ++ gs) k →
    ∃ j, Forms s i fs j ∧ Forms s j gs k := by
  intro fs
  induction fs with
  | nil => exact fun h => ⟨_, .nil, h⟩
  | cons f fs ih =>
      intro i h
      cases h with
      | cons hf hfs =>
          obtain ⟨j, hfs, hgs⟩ := ih hfs
          exact ⟨j, .cons hf hfs, hgs⟩

/-- The stage behind some subscripts. -/
def stageOf (es : List Node) : Stage :=
  match es with
  | [] => .bare
  | _ :: _ => .indexed

theorem shape_indexed {t : Int} (es : List Node) :
    Shape s x (stageOf es) (.mk t (nameKind s x) (indexChain es) .null) := by
  cases es with
  | nil => exact .bare
  | cons e es => exact .indexed

theorem fits_indexed {rest : List Form} : ∀ es : List Node,
    Fits s x .indexed (es.map Form.subscript ++ rest) ↔ Fits s x .indexed rest := by
  intro es
  induction es with
  | nil => exact Iff.rfl
  | cons e es ih =>
      constructor
      · rintro ⟨st, hst, h⟩
        cases hst
        exact ih.mp h
      · exact fun h => ⟨.indexed, rfl, ih.mpr h⟩

theorem fits_subscripts {rest : List Form} (es : List Node) :
    Fits s x .bare (es.map Form.subscript ++ rest) ↔ Fits s x (stageOf es) rest := by
  cases es with
  | nil => exact Iff.rfl
  | cons e es =>
      refine Iff.trans ⟨?_, fun h => ⟨.indexed, rfl, h⟩⟩ (fits_indexed es)
      rintro ⟨st, hst, h⟩
      cases hst
      exact h

theorem Stage.next_inside {st st' : Stage} {f : Form} (h : st.next s x f = some st')
    (hsub : ¬ f.IsSubscript) : st' ≠ .bare ∧ st' ≠ .indexed := by
  have hmap : ∀ {o : Option (Int × Int × Int)}, o.map (fun d => Stage.within d.2.2) = some st' →
      st' ≠ .bare ∧ st' ≠ .indexed := by
    intro o ho
    obtain ⟨d, -, rfl⟩ := Option.map_eq_some_iff.mp ho
    exact ⟨nofun, nofun⟩
  have hdone : some Stage.done = some st' → st' ≠ .bare ∧ st' ≠ .indexed := by
    intro h
    cases h
    exact ⟨nofun, nofun⟩
  cases f with
  | subscript e => exact absurd trivial hsub
  | call args => cases st with
    | bare => exact hdone h
    | _ => cases h
  | member op m => cases st with
    | done => cases h
    | _ => exact hmap h
  | inc => cases st <;> exact hdone h
  | dec => cases st <;> exact hdone h

/-- Behind a member, a call or an increment no subscript fits. -/
theorem Fits.no_subscript : ∀ {fs : List Form} {st : Stage}, Fits s x st fs →
    (st ≠ .bare ∧ st ≠ .indexed) ∨ (∀ f ∈ fs.head?, ¬ f.IsSubscript) → ∀ f ∈ fs, ¬ f.IsSubscript := by
  intro fs
  induction fs with
  | nil => exact fun _ _ _ hf => by cases hf
  | cons g fs ih =>
      rintro st ⟨st', hnext, hfits⟩ hst f hf
      have hg : ¬ g.IsSubscript := by
        rcases hst with ⟨hbare, hindexed⟩ | hhead
        · intro hg
          cases g with
          | subscript e =>
              cases st with
              | bare => exact hbare rfl
              | indexed => exact hindexed rfl
              | _ => cases hnext
          | _ => exact hg
        · exact hhead g rfl
      rcases List.mem_cons.mp hf with rfl | hf
      · exact hg
      · exact ih hfits (.inl (Stage.next_inside hnext hg)) f hf

theorem built_append {left' : Node} {gs : List Form} : ∀ {fs : List Form} {left : Node},
    Built s x left fs left' → Built s x left' gs e → Built s x left (fs ++ gs) e := by
  intro fs
  induction fs with
  | nil =>
      intro left h hgs
      cases h
      exact hgs
  | cons f fs ih =>
      intro left h hgs
      cases h with
      | cons hf hfs => exact .cons hf (ih hfs hgs)

theorem built_subscripts {t : Int} : ∀ (es acc : List Node),
    Built s x (.mk t (nameKind s x) (indexChain acc) .null) (es.map Form.subscript)
      (.mk t (nameKind s x) (indexChain (acc ++ es)) .null) := by
  intro es
  induction es with
  | nil =>
      intro acc
      rw [List.append_nil]
      exact .nil
  | cons e es ih =>
      intro acc
      have h := ih (acc ++ [e])
      rw [List.append_assoc] at h
      exact .cons .subscript h

/-- What is behind the subscripts is no further one. -/
theorem rest_no_index {rest : List Form} (h : Forms s j rest k) (hhead : ∀ f ∈ rest.head?, ¬ f.IsSubscript)
    (hstop : get_precedence (tokenType s k) ≤ 0) : tokenType s j ≠ '['.toNat := by
  intro hopen
  cases h with
  | nil =>
      rw [hopen] at hstop
      exact absurd hstop (by decide)
  | cons hf _ =>
      have hsub := hhead _ rfl
      cases hf with
      | subscript => exact hsub trivial
      | call h => rw [hopen] at h; exact absurd h (by decide)
      | member hop h => rw [← h, hopen] at hop; exact absurd hop (by decide)
      | inc h => rw [hopen] at h; exact absurd h (by decide)
      | dec h => rw [hopen] at h; exact absurd h (by decide)

/-- The operand is read by a call of `parse_expression` whose power leaves it the postfix forms, or
if there are only subscripts. -/
theorem operand_read {fs : List Form} (hname : tokenAt s i = ⟨T_IDENTIFIER, x⟩)
    (hforms : Forms s (i + 1) fs k) (hstop : get_precedence (tokenType s k) ≤ 0) (hp0 : 0 ≤ p)
    (hfits : Fits s x .bare fs)
    (hp : (∀ f ∈ fs, f.IsSubscript) ∨ p < 80) :
    ∃ e, Built s x (.mk i (nameKind s x) .null .null) fs e ∧
      Reads s (fun n => (calls n).parse_expression p) i k e := by
  obtain ⟨es, rest, rfl, hhead⟩ := forms_split fs
  obtain ⟨j, hes, hrest⟩ := forms_append hforms
  have hnud := reads_name hname hes (rest_no_index hrest hhead hstop)
  have hclimb : ∃ e, Built s x (.mk i (nameKind s x) (indexChain es) .null) rest e ∧
      Reads s (fun n => climb (calls n) p n (.mk i (nameKind s x) (indexChain es) .null)) j k e := by
    rcases hp with hall | hp
    · cases hrest with
      | nil => exact ⟨_, .nil, reads_climb_stop (Int.le_trans hstop hp0)⟩
      | cons => exact absurd (hall _ (List.mem_append_right _ (List.mem_cons_self ..))) (hhead _ rfl)
    · have hfits := (fits_subscripts es).mp hfits
      exact forms_read hname hp (Int.le_trans hstop hp0) hrest hfits (hfits.no_subscript (.inr hhead))
        (shape_indexed es) fun _ => rfl
  obtain ⟨e, hbuilt, hread⟩ := hclimb
  exact ⟨e, built_append (built_subscripts es []) hbuilt, reads_expression hnud hread⟩

/-! ### Prefix operators -/

/-- The power with which a prefix operator calls `parse_expression`. -/
def Prefix.power : Prefix → Int
  | deref | neg | addr => 90
  | inc | dec => 70

def Prefix.id : Prefix → Nat → Int
  | neg, _ => 0
  | _, i => i

theorem nud_unary {r : Calls} (o : Prefix) (h : tokenType s s.tp1 = o.token.type) : nud r s =
    (r.parse_expression o.power >>= fun e => pure (.mk (o.id s.tp1) (o.kind e) .null .null) : P Node)
      (s.goto (s.tp1 + 1)) := by
  have hpeek : peek s = .ok (tokenAt s s.tp1) s := rfl
  have htype : (tokenAt s s.tp1).type = o.token.type := h
  have hnext := advance_token (s := s) (by rw [h]; cases o <;> decide)
  have hlast : lastToken (s.goto (s.tp1 + 1)) = .ok (s.tp1 : Int) (s.goto (s.tp1 + 1)) := by
    show Out.ok (((s.tp1 + 1 : Nat) : Int) - 1) _ = _
    rw [Int.natCast_add, Int.natCast_one, Int.add_sub_cancel]
  unfold nud
  rw [bind_of_ok hpeek]
  simp only [htype]
  cases o with
  | deref => exact (bind_of_ok hnext).trans (bind_of_ok hlast)
  | neg => exact bind_of_ok hnext
  | addr => exact (bind_of_ok hnext).trans (bind_of_ok hlast)
  | inc => exact (bind_of_ok hnext).trans (bind_of_ok hlast)
  | dec => exact (bind_of_ok hnext).trans (bind_of_ok hlast)

theorem reads_unary {o : Prefix} (h : tokenAt s i = o.token)
    (he : Reads s (fun n => (calls n).parse_expression o.power) (i + 1) k e) :
    Reads s (fun n => nud (calls n)) i k (.mk (o.id i) (o.kind e) .null .null) := by
  obtain ⟨N, hN⟩ := he.bind
    (g := fun _ e => (pure (.mk (o.id i) (o.kind e) .null .null) : P Node)) (reads_pure _)
  refine ⟨N, fun n hn b => ?_⟩
  obtain ⟨b', h'⟩ := hN n hn b
  exact ⟨b', (nud_unary (s := spot s i b) o (congrArg Token.type h)).trans h'⟩

theorem leavesPostfix_cons {o : Prefix} {ps : List Prefix} (hne : ps ≠ []) :
    LeavesPostfix (o :: ps) ↔ LeavesPostfix ps := by
  obtain ⟨o', ps, rfl⟩ := List.exists_cons_of_ne_nil hne
  unfold LeavesPostfix
  rw [List.getLast?_cons_cons]

/-- The whole text is read if the operand's call leaves it the postfix forms. -/
theorem prefixed_read {fs : List Form} (hforms : Forms s (n + 1) fs k)
    (hstop : get_precedence (tokenType s k) ≤ 0) (hname : tokenAt s n = ⟨T_IDENTIFIER, x⟩)
    (hfits : Fits s x .bare fs) :
    ∀ {ps : List Prefix} {i : Nat} {p : Int}, Stands s i (ps.map Prefix.token) → n = i + ps.length →
    0 ≤ p → (∀ f ∈ fs, f.IsSubscript) ∨ (ps = [] → p < 80) ∧ LeavesPostfix ps →
    ∃ e, Prefixed s x fs ps e ∧ Reads s (fun n => (calls n).parse_expression p) i k e := by
  intro ps
  induction ps with
  | nil =>
      intro i p _ hn hp0 hp
      obtain rfl : n = i := hn
      obtain ⟨e, hbuilt, hread⟩ := operand_read hname hforms hstop hp0 hfits
        (hp.imp_right fun h => h.1 rfl)
      exact ⟨e, .operand hbuilt, hread⟩
  | cons o ps ih =>
      intro i p hstands hn hp0 hp
      obtain ⟨htoken, hstands⟩ := hstands
      have hpower : 0 ≤ o.power := by cases o <;> decide
      have hrest : (∀ f ∈ fs, f.IsSubscript) ∨ (ps = [] → o.power < 80) ∧ LeavesPostfix ps := by
        refine hp.imp_right fun ⟨_, hlast⟩ => ?_
        cases ps with
        | nil =>
            refine ⟨fun _ => ?_, fun _ h => by cases h⟩
            rcases hlast o rfl with rfl | rfl <;> decide
        | cons o' ps =>
            have hne := List.cons_ne_nil o' ps
            exact ⟨fun h => absurd h hne, (leavesPostfix_cons hne).mp hlast⟩
      obtain ⟨e, hprefixed, hread⟩ := ih hstands (by rw [hn, List.length_cons]; omega) hpower hrest
      exact ⟨_, .op hprefixed, reads_expression (reads_unary htoken hread)
        (reads_climb_stop (Int.le_trans hstop hp0))⟩

/-! ### What the loop makes of a prefix operator -/

/-- The node is a number. -/
def IsInt : Node → Prop
  | .mk _ (.int _) _ _ => True
  | _ => False

/-- The nodes the loop makes of what it has: none of them is one of a prefix operator. -/
def Composite : Node → Prop
  | .mk _ (.call _ _ _) _ _ => True
  | .mk _ (.mem_access _ _ _ _ _) _ _ => True
  | .mk _ (.postinc _) _ _ => True
  | .mk _ (.postdec _) _ _ => True
  | .mk _ (.bin _ left _) _ _ => ¬ IsInt left
  | _ => False

theorem Composite.not_int (h : Composite e) : ¬ IsInt e := by
  intro hint
  unfold IsInt at hint
  split at hint
  · exact h
  · exact hint

theorem prefix_not_composite (t : Int) (o : Prefix) (e : Node) :
    ¬ Composite (.mk t (o.kind e) .null .null) := by
  cases o with
  | neg => exact fun h => h trivial
  | _ => exact id

theorem prefix_not_int (t : Int) (o : Prefix) (e : Node) : ¬ IsInt (.mk t (o.kind e) .null .null) := by
  cases o <;> exact id

theorem setNext_int (left : Node) : IsInt (left.setNext .null) ↔ IsInt left := by
  cases left with
  | null => exact Iff.rfl
  | mk t k ix nx => cases k <;> exact Iff.rfl

theorem led_composite {r : Calls} {t : Parser} (hleft : ¬ IsInt left) (h : led r left s = .ok e t) :
    Composite e := by
  unfold led at h
  obtain ⟨op, t₁, -, h⟩ := bind_ok_iff.mp h
  split at h
  · obtain ⟨name, t₂, -, h⟩ := bind_ok_iff.mp h
    obtain ⟨args, t₃, -, h⟩ := bind_ok_iff.mp h
    obtain ⟨tok, t₄, -, h⟩ := bind_ok_iff.mp h
    cases h
    trivial
  split at h
  · obtain ⟨memtok, t₂, -, h⟩ := bind_ok_iff.mp h
    obtain ⟨structid, t₃, -, h⟩ := bind_ok_iff.mp h
    split at h
    · cases h
    obtain ⟨entry, t₄, -, h⟩ := bind_ok_iff.mp h
    cases hm : memberNamed entry memtok.name with
    | none => rw [hm] at h; cases h
    | some memidx =>
        rw [hm] at h
        dsimp only at h
        split at h
        · obtain ⟨id, t₅, -, h⟩ := bind_ok_iff.mp h
          cases h
          trivial
        · cases h
          trivial
  split at h
  · cases h
    trivial
  split at h
  · cases h
    trivial
  · obtain ⟨right, t₂, -, h⟩ := bind_ok_iff.mp h
    cases h
    exact fun hint => hleft ((setNext_int left).mp hint)

/-- A round of the loop that was not the last one. -/
theorem climb_round {r : Calls} {t : Parser} (hp : p < get_precedence (tokenType s s.tp1))
    (h : climb r p (k + 1) left s = .ok e t) :
    ∃ left' u, led r left s = .ok left' u ∧ climb r p k left' u = .ok e t := by
  obtain ⟨next, u, hround, h⟩ := bind_ok_iff.mp h
  have hled : (led r left >>= fun left' => (pure (.inl left') : P (Node ⊕ Node))) s = .ok next u := by
    refine Eq.trans (Eq.symm ?_) hround
    show (if get_precedence (tokenType s s.tp1) > p then _ else _ : P (Node ⊕ Node)) s = _
    rw [if_pos hp]
  obtain ⟨left', u', hled, hnext⟩ := bind_ok_iff.mp hled
  cases hnext
  exact ⟨left', _, hled, h⟩

theorem climb_composite {r : Calls} : ∀ {k : Nat} {left : Node} {s t : Parser}, ¬ IsInt left →
    climb r p k left s = .ok e t → e = left ∨ Composite e := by
  intro k
  induction k with
  | zero => exact fun _ h => by cases h
  | succ k ih =>
      intro left s t hleft h
      rcases Int.lt_or_le p (get_precedence (tokenType s s.tp1)) with hp | hp
      · obtain ⟨left', u, hled, h⟩ := climb_round hp h
        have hcomposite := led_composite hleft hled
        refine .inr ?_
        rcases ih hcomposite.not_int h with rfl | h
        · exact hcomposite
        · exact h
      · rw [climb_stop hp] at h
        cases h
        exact .inl rfl

theorem prefix_inj {o : Prefix} {t t' : Int} {ix nx : Node}
    (h : Node.mk t (o.kind e) .null .null = .mk t' (o.kind e') ix nx) : e = e' := by
  cases o <;> (cases h; rfl)

/-- The operand's own call of `parse_expression`, and what it returns. -/
theorem peel {fs : List Form} : ∀ {ps : List Prefix} {i n : Nat} {p : Int} {b : Bool} {e : Node}
    {t : Parser}, Stands s i (ps.map Prefix.token) → (calls n).parse_expression p (spot s i b) = .ok e t →
    Prefixed s x fs ps e → ∃ m q c e' t' u,
      (calls m).parse_expression q (spot s (i + ps.length) c) = .ok e' t' ∧
      Built s x (.mk u (nameKind s x) .null .null) fs e' ∧
      (ps = [] ∧ q = p ∨ ∃ o, ps.getLast? = some o ∧ q = o.power) := by
  intro ps
  induction ps with
  | nil =>
      intro i n p b e t _ h hprefixed
      cases hprefixed with
      | operand hbuilt => exact ⟨n, p, b, e, t, _, h, hbuilt, .inl ⟨rfl, rfl⟩⟩
  | cons o ps ih =>
      intro i n p b e t hstands h hprefixed
      obtain ⟨htoken, hstands⟩ := hstands
      cases n with
      | zero => cases h
      | succ n =>
          obtain ⟨left, t₁, hnud, hclimb⟩ :=
            bind_ok_iff.mp ((congrFun (calls_expression n p) _).symm.trans h)
          obtain ⟨e₁, t₂, he₁, hleft⟩ := bind_ok_iff.mp
            ((nud_unary (s := spot s i b) o (congrArg Token.type htoken)).symm.trans hnud)
          cases hleft
          cases hprefixed with
          | op hprefixed =>
              rcases climb_composite (prefix_not_int _ o e₁) hclimb with heq | hcomposite
              · cases prefix_inj heq
                obtain ⟨m, q, c, e', t', u, hread, hbuilt, hq⟩ := ih (b := b) hstands he₁ hprefixed
                refine ⟨m, q, c, e', t', u, ?_, hbuilt, .inr ?_⟩
                · rw [List.length_cons, Nat.add_comm ps.length, ← Nat.add_assoc]
                  exact hread
                · rcases hq with ⟨rfl, rfl⟩ | ⟨o', hlast, hq⟩
                  · exact ⟨o, rfl, rfl⟩
                  · refine ⟨o', ?_, hq⟩
                    rw [List.getLast?_cons, hlast]
                    rfl
              · exact absurd hcomposite (prefix_not_composite _ o _)

/-! ### Which operands have a tree -/

/-- The node is the identifier, with subscripts or without. -/
def IsName (s : Parser) (x : Name) (e : Node) : Prop := e.kind? = some (nameKind s x)

theorem Shape.of_name {st : Stage} (h : Shape s x st e) (hname : IsName s x e) :
    st = .bare ∧ e.indnxt = .null ∨ st = .indexed ∧ e.indnxt ≠ .null := by
  have hkind := nameKind_cases s x
  cases h with
  | bare => exact .inl ⟨rfl, rfl⟩
  | indexed => exact .inr ⟨rfl, nofun⟩
  | _ =>
      have heq := Option.some.inj hname
      rw [← heq] at hkind
      rcases hkind with ⟨_, _, h⟩ | ⟨_, _, _, h⟩ <;> cases h

theorem applied_name {f : Form} (h : Applied s x e f e') (hname : IsName s x e') :
    f.IsSubscript ∧ IsName s x e := by
  have hkind := nameKind_cases s x
  cases h with
  | subscript => exact ⟨trivial, rfl⟩
  | _ =>
      have heq := Option.some.inj hname
      rw [← heq] at hkind
      rcases hkind with ⟨_, _, h⟩ | ⟨_, _, _, h⟩ <;> cases h

theorem built_name {fs : List Form} {left : Node} (h : Built s x left fs e) (hname : IsName s x e) :
    (∀ f ∈ fs, f.IsSubscript) ∧ IsName s x left := by
  induction h with
  | nil => exact ⟨fun _ h => absurd h List.not_mem_nil, hname⟩
  | cons hf _ ih =>
      obtain ⟨hall, hnext⟩ := ih hname
      obtain ⟨hsub, hleft⟩ := applied_name hf hnext
      refine ⟨fun f hmem => ?_, hleft⟩
      rcases List.mem_cons.mp hmem with rfl | hmem
      · exact hsub
      · exact hall f hmem

theorem fits_of_subscripts {fs : List Form} (h : ∀ f ∈ fs, f.IsSubscript) : Fits s x .bare fs := by
  obtain ⟨es, rest, rfl, hhead⟩ := forms_split fs
  cases rest with
  | nil => exact (fits_subscripts es).mpr trivial
  | cons f rest => exact absurd (h f (List.mem_append_right _ (List.mem_cons_self ..))) (hhead f rfl)

/-- A form that has a tree fits, but for a member behind `++` or `--`. -/
theorem applied_next {st : Stage} {f : Form} (hshape : Shape s x st e) (h : Applied s x e f e')
    (hsub : ¬ f.IsSubscript) : (∃ st', st.next s x f = some st' ∧ Shape s x st' e') ∨
      st = .done ∧ ∃ op m, f = .member op m := by
  cases h with
  | call =>
      rcases hshape.of_name rfl with ⟨rfl, -⟩ | ⟨-, hindex⟩
      · exact .inl ⟨.done, rfl, .call⟩
      · exact absurd rfl hindex
  | @member t op offset dt id m e hm =>
      by_cases hdone : st = .done
      · exact .inr ⟨hdone, op, m, rfl⟩
      · rw [hshape.struct hdone] at hm
        refine .inl ⟨.within id, ?_, .within⟩
        cases st with
        | done => exact absurd rfl hdone
        | _ => exact Option.map_eq_some_iff.mpr ⟨_, hm, rfl⟩
  | subscript => exact absurd trivial hsub
  | inc => exact .inl ⟨.done, by cases st <;> rfl, .postinc⟩
  | dec => exact .inl ⟨.done, by cases st <;> rfl, .postdec⟩

/-- The member of something that is no struct is an error. -/
theorem led_member_done {r : Calls} {t : Parser} {op : Int} (hshape : Shape s x .done left)
    (hop : op = '.'.toNat ∨ op = T_ARROW) (hj : tokenType s j = op) {b : Bool} :
    led r left (spot s j b) ≠ .ok e t := by
  intro h
  have hcall : op ≠ '('.toNat := by rcases hop with rfl | rfl <;> decide
  have hne : tokenType s j ≠ T_EOF := by rw [hj]; rcases hop with rfl | rfl <;> decide
  unfold led at h
  rw [bind_of_ok (advance_token (s := spot s j b) hne)] at h
  rw [show (tokenAt (spot s j b) (spot s j b).tp1).type = op from hj, if_neg hcall, if_pos hop] at h
  obtain ⟨memtok, u, -, h⟩ := bind_ok_iff.mp h
  obtain ⟨structid, u', hstruct, h⟩ := bind_ok_iff.mp h
  have hnone : structid = -1 := by
    cases hshape <;> (cases hstruct; rfl)
  rw [if_pos hnone] at h
  cases h

theorem climb_more {n m k l : Nat} (h : n ≤ m) (hk : k ≤ l) {t u : Parser}
    (hok : climb (calls n) p k left t = .ok e u) : climb (calls m) p l left t = .ok e u := by
  have hunder := under_cycle (climbRound_under p n m h) hk left
  exact (hunder.eq fun v hv => by cases hok.symm.trans hv).trans hok

/-- Forms that have a tree and are read along the loop fit. -/
theorem fits_of_climb (hname : tokenAt s i = ⟨T_IDENTIFIER, x⟩) (hp : p < 80) :
    ∀ {fs : List Form} {j : Nat} {st : Stage} {left tree : Node}, Shape s x st left → Shape s x st tree →
    (st ≠ .done → left.token_id = i) → Forms s j fs k →
    (st ≠ .bare ∧ st ≠ .indexed) ∨ (∀ f ∈ fs.head?, ¬ f.IsSubscript) → Built s x tree fs e →
    (∃ n b e' t, climb (calls n) p n left (spot s j b) = .ok e' t) → Fits s x st fs := by
  intro fs
  induction fs with
  | nil => exact fun _ _ _ _ _ _ _ => trivial
  | cons f fs ih =>
      rintro j st left tree hshape htree hid hforms hhead hbuilt ⟨n, b, e', t, hclimb⟩
      cases hforms with
      | cons hf hfs =>
      cases hbuilt with
      | cons happlied hbuilt =>
      have hsub : ¬ f.IsSubscript := by
        rcases hhead with ⟨hbare, hindexed⟩ | hhead
        · intro hsub
          cases happlied with
          | subscript =>
              rcases htree.of_name rfl with ⟨h, -⟩ | ⟨h, -⟩
              · exact hbare h
              · exact hindexed h
          | _ => exact hsub
        · exact hhead f rfl
      have hround : p < get_precedence (tokenType (spot s j b) (spot s j b).tp1) :=
        Int.lt_of_lt_of_le hp (Int.le_of_eq hf.precedence.symm)
      rcases applied_next htree happlied hsub with ⟨st', hnext, htree'⟩ | ⟨rfl, op, m, rfl⟩
      · obtain ⟨left', ⟨N, hN⟩, -, hshape', hid'⟩ := reads_led hshape hid hname hf hnext hsub
        refine ⟨st', hnext, ih hshape' htree' hid' hfs (.inl (Stage.next_inside hnext hsub)) hbuilt ?_⟩
        have hn : n ≤ max n N + 1 := Nat.le_succ_of_le (Nat.le_max_left n N)
        obtain ⟨left'', u, hled, hrest⟩ := climb_round hround (climb_more hn hn hclimb)
        obtain ⟨b', hled'⟩ := hN (max n N + 1) (Nat.le_succ_of_le (Nat.le_max_right n N)) b
        cases hled.symm.trans hled'
        exact ⟨max n N + 1, b', e', t, climb_more (Nat.le_refl _) (Nat.le_succ _) hrest⟩
      · cases hf with
        | member hop hj =>
            cases n with
            | zero => cases hclimb
            | succ n =>
                obtain ⟨left', u, hled, -⟩ := climb_round hround hclimb
                exact absurd hled (led_member_done hshape hop hj)

/-- What is read with the power of `*`, `-` and `&` is the identifier with its subscripts. -/
theorem operand_alone {t : Parser} {b : Bool} (hname : tokenAt s i = ⟨T_IDENTIFIER, x⟩)
    (h : (calls n).parse_expression 90 (spot s i b) = .ok e t) : IsName s x e := by
  have hprec : ∀ ty, get_precedence ty ≤ 90 := by
    intro ty
    unfold get_precedence
    repeat' split
    all_goals decide
  cases n with
  | zero => cases h
  | succ n =>
      obtain ⟨left, u, hnud, hclimb⟩ := bind_ok_iff.mp ((congrFun (calls_expression n 90) _).symm.trans h)
      rw [nud_name (s := spot s i b) (congrArg Token.type hname)] at hnud
      obtain ⟨es, v, -, hleft⟩ := bind_ok_iff.mp hnud
      cases hleft
      cases n with
      | zero => cases hclimb
      | succ n =>
          rw [climb_stop (hprec _)] at hclimb
          cases hclimb
          show some (nameKind s (tokenAt s i).name) = _
          rw [hname]

theorem indexChain_inj : ∀ {es es' : List Node}, indexChain es = indexChain es' → es = es' := by
  intro es
  induction es with
  | nil =>
      intro es' h
      cases es' with
      | nil => rfl
      | cons e es' => cases h
  | cons e es ih =>
      intro es' h
      cases es' with
      | nil => cases h
      | cons e' es' =>
          obtain ⟨-, hkind, hrest, -⟩ := Node.mk.inj h
          rw [Kind.arr_access.inj hkind, ih hrest]

theorem applied_subscript {t : Int} {ix : Node}
    (h : Applied s x (.mk t (nameKind s x) ix .null) (.subscript e) e') :
    ∃ es t', ix = indexChain es ∧ e' = .mk t' (nameKind s x) (indexChain (es ++ [e])) .null := by
  cases h with
  | subscript => exact ⟨_, _, rfl, rfl⟩

theorem built_behind {rest : List Form} : ∀ {es acc : List Node} {t : Int},
    Built s x (.mk t (nameKind s x) (indexChain acc) .null) (es.map Form.subscript ++ rest) e →
    ∃ t', Built s x (.mk t' (nameKind s x) (indexChain (acc ++ es)) .null) rest e := by
  intro es
  induction es with
  | nil =>
      intro acc t h
      rw [List.append_nil]
      exact ⟨t, h⟩
  | cons e es ih =>
      intro acc t h
      cases h with
      | cons hf h =>
          obtain ⟨acc', t', hacc, rfl⟩ := applied_subscript hf
          cases indexChain_inj hacc
          have hrest := ih h
          rw [List.append_assoc] at hrest
          exact hrest

/-- What is read with less power than the postfix operators have fits. -/
theorem operand_fits {fs : List Form} {t : Parser} {b : Bool} {u : Int}
    (hname : tokenAt s i = ⟨T_IDENTIFIER, x⟩) (hforms : Forms s (i + 1) fs k)
    (hstop : get_precedence (tokenType s k) ≤ 0) (hp : p < 80)
    (h : (calls n).parse_expression p (spot s i b) = .ok e t)
    (hbuilt : Built s x (.mk u (nameKind s x) .null .null) fs e') : Fits s x .bare fs := by
  obtain ⟨es, rest, rfl, hhead⟩ := forms_split fs
  obtain ⟨j, hes, hrest⟩ := forms_append hforms
  obtain ⟨N, hN⟩ := reads_name hname hes (rest_no_index hrest hhead hstop)
  have htree : Built s x (.mk u (nameKind s x) (indexChain []) .null)
    (es.map Form.subscript ++ rest) e' := hbuilt
  obtain ⟨u', htree⟩ := built_behind htree
  have hbig := ((calls_under (Nat.le_succ_of_le (Nat.le_max_left n N))).expression p).eq
    (s := spot s i b) (fun v hv => by cases h.symm.trans hv)
  obtain ⟨left, v, hnud, hclimb⟩ := bind_ok_iff.mp
    ((congrFun (calls_expression (max n N) p) _).symm.trans (hbig.trans h))
  obtain ⟨b', hnud'⟩ := hN (max n N) (Nat.le_max_right n N) b
  cases hnud.symm.trans hnud'
  refine (fits_subscripts es).mpr ?_
  exact fits_of_climb hname hp (shape_indexed es) (shape_indexed es) (fun _ => rfl) hrest (.inr hhead) htree
    ⟨_, _, _, _, hclimb⟩

theorem BindsTighter.fits {ps : List Prefix} {fs : List Form} (h : OperandText s i ps x fs k)
    (hright : BindsTighter s i ps x fs k) :
    Fits s x .bare fs ∧ ((∀ f ∈ fs, f.IsSubscript) ∨ LeavesPostfix ps) := by
  obtain ⟨e, hprefixed, N, hN⟩ := hright
  obtain ⟨b', hread⟩ := hN N (Nat.le_refl N) false
  obtain ⟨m, q, c, e', t, u, hread, hbuilt, hq⟩ := peel h.prefixes hread hprefixed
  have hloose : q < 80 → LeavesPostfix ps →
      Fits s x .bare fs ∧ ((∀ f ∈ fs, f.IsSubscript) ∨ LeavesPostfix ps) := fun hq hps =>
    ⟨operand_fits h.name h.forms h.stop hq hread hbuilt, .inr hps⟩
  have htight : q = 90 → Fits s x .bare fs ∧ ((∀ f ∈ fs, f.IsSubscript) ∨ LeavesPostfix ps) := by
    intro hq
    subst hq
    obtain ⟨hall, -⟩ := built_name hbuilt (operand_alone h.name hread)
    exact ⟨fits_of_subscripts hall, .inl hall⟩
  rcases hq with ⟨rfl, rfl⟩ | ⟨o, hlast, rfl⟩
  · exact hloose (by decide) fun _ h => by cases h
  · have hinc : o = .inc ∨ o = .dec → LeavesPostfix ps := fun ho o' ho' => by
      cases hlast.symm.trans ho'
      exact ho
    cases o with
    | inc => exact hloose (by decide) (hinc (.inl rfl))
    | dec => exact hloose (by decide) (hinc (.inr rfl))
    | _ => exact htight rfl

/-- The postfix operators bind tighter than the prefix operators exactly if the operand is one that
the parser has nodes for and the innermost prefix operator is `++` or `--`; `*`, `-` and `&` bind
tighter than everything but subscripts. -/
theorem bindsTighter_iff {ps : List Prefix} {fs : List Form} (h : OperandText s i ps x fs k) :
    BindsTighter s i ps x fs k ↔
      Fits s x .bare fs ∧ ((∀ f ∈ fs, f.IsSubscript) ∨ LeavesPostfix ps) := by
  refine ⟨BindsTighter.fits h, ?_⟩
  rintro ⟨hfits, hps⟩
  obtain ⟨e, hprefixed, hread⟩ := prefixed_read h.forms h.stop h.name hfits h.prefixes rfl (Int.le_refl 0)
    (hps.imp_right fun hlast => ⟨fun _ => by decide, hlast⟩)
  exact ⟨e, hprefixed, hread⟩

/-- The call `f ( )` with a prefix operator in front of it. -/
def prefixedCall (o : Prefix) : Parser :=
  { start with tokens := [o.token, ⟨T_IDENTIFIER, ['f']⟩, ⟨'('.toNat, ['(']⟩, ⟨')'.toNat, [')']⟩,
      ⟨';'.toNat, [';']⟩] }

theorem prefixedCall_text (o : Prefix) : OperandText (prefixedCall o) 0 [o] ['f'] [.call []] 4 where
  prefixes := ⟨rfl, trivial⟩
  name := rfl
  forms := .cons (.call rfl (.none rfl)) .nil
  stop := (by decide : get_precedence ';'.toNat ≤ 0)

/-- `++ f ( )` is the increment of the call. -/
theorem bindsTighter_inc : BindsTighter (prefixedCall .inc) 0 [.inc] ['f'] [.call []] 4 := by
  refine (bindsTighter_iff (prefixedCall_text .inc)).mpr ⟨⟨.done, rfl, trivial⟩, .inr fun o h => ?_⟩
  cases h
  exact .inl rfl

/-- `* f ( )` is a call of what the star stands for. -/
theorem deref_call_wrong : OperandText (prefixedCall .deref) 0 [.deref] ['f'] [.call []] 4 ∧
    ¬ BindsTighter (prefixedCall .deref) 0 [.deref] ['f'] [.call []] 4 := by
  refine ⟨prefixedCall_text .deref, fun h => ?_⟩
  obtain ⟨-, hall | hps⟩ := h.fits (prefixedCall_text .deref)
  · exact hall (.call []) (List.mem_singleton_self _)
  · rcases hps .deref rfl with h | h <;> cases h

end Parser

end Eke
