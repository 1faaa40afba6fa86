/-
The parser.

Its state is the global variables of the source: the place in the tokens, the symbol table,
the struct table, the global table and the counters.  `initParser` resets some of them and
leaves the rest as an earlier text left it; `leans` notes that a run read such a rest, and a
record's `ownDims` and `ownStruct` that the run set the field itself.  None of the three is
in the code, and nothing the parser does depends on them.

A table has the length the source gives it.  An access beyond it is `undefined`, and so is
the use of a pointer the source does not set, of the name of a struct from an earlier text,
which points into memory that has been given away since, and of a token past the last one.
The recursion goes through `Calls`, the two functions that start it again with less fuel.
Messages are left out.
-/
import Eke.Compiler.Ast
import Eke.Lib.Prog

namespace Eke

/-- A token with its text. -/
structure Token where
  type : Int
  name : Name

structure Record where
  name : Name
  type : Int
  offset : Int
  gt_index : Int
  is_global : Int
  size : Int
  isarray : Int
  ptrlvl : Int
  dim_size : Nat → Int
  dim_cnt : Int
  struct_id : Int
  ownDims : Bool
  ownStruct : Bool

/-- The entry of a variable, complete. -/
def Record.complete (e : Record) (dc : Nat) (te struct_id : Int) : Record :=
  { e with dim_cnt := dc, size := te, isarray := if 0 < dc then 1 else 0, struct_id := struct_id
           ownStruct := true }

structure Globalentry where
  id : Int
  name : Name
  p : Node

structure Structentry where
  name : Option Name
  mem_name : Nat → Name
  mem_type : Nat → Int
  mem_struct_name : Nat → Name
  isptr : Nat → Int
  size : Int
  offset : Nat → Int
  count : Int

/-- The variables of the parser. -/
structure Parser where
  tokens : List Token
  tp1 : Nat
  gbr : Int
  bp : Int
  sp : Nat
  global_table : List Globalentry
  symtab : Nat → Record
  struct_table : Nat → Structentry
  st_count : Int
  /-- The last struct of an earlier text. -/
  old : Int
  leans : Bool

/-- A C `int`. -/
def int32 (z : Int) : Int := z.bmod (2 ^ 32)

theorem int32_exact {z : Int} (h : -2 ^ 31 ≤ z) (h' : z < 2 ^ 31) : int32 z = z :=
  Int.bmod_eq_of_le (by omega) (by omega)

theorem int32_same {z : Int} (h : 0 ≤ z) (h' : z < 2 ^ 31) : int32 z = z := int32_exact (by omega) h'

theorem int32_lt (z : Int) : int32 z < 2 ^ 31 := Int.bmod_lt (by decide)

theorem le_int32 (z : Int) : -2 ^ 31 ≤ int32 z := Int.le_bmod (by decide)

/-- The multiple of `2 ^ 32` that is between a number and its `int`. -/
theorem int32_eq (z : Int) : ∃ p, int32 z = z + 2 ^ 32 * p := by
  refine ⟨-((z - int32 z) / 2 ^ 32), ?_⟩
  have hdvd : (2 ^ 32 : Int) ∣ z - int32 z := Int.dvd_self_sub_bmod
  have hcancel := Int.mul_ediv_cancel' hdvd
  omega

theorem int32_add (z p : Int) : int32 (z + 2 ^ 32 * p) = int32 z := Int.add_mul_bmod_self_left z (2 ^ 32) p

theorem int32_int32 (z : Int) : int32 (int32 z) = int32 z := Int.bmod_bmod

theorem int32_add_congr {a b : Int} (h : int32 a = int32 b) (c : Int) : int32 (a + c) = int32 (b + c) := by
  unfold int32 at h ⊢
  rw [← Int.bmod_add_bmod, h, Int.bmod_add_bmod]

theorem int32_mul_congr {a b : Int} (h : int32 a = int32 b) (c : Int) : int32 (a * c) = int32 (b * c) := by
  unfold int32 at h ⊢
  rw [← Int.bmod_mul_bmod, h, Int.bmod_mul_bmod]

/-- The decimal number at the start of a text. -/
def digits : Int → Name → Int
  | res, [] => res
  | res, c :: cs =>
      if '0' ≤ c ∧ c ≤ '9' then digits (int32 (res * 10 + (c.toNat - '0'.toNat))) cs else res

def atoi (s : Name) : Int :=
  match s.dropWhile fun c => c = ' ' ∨ c = '\t' with
  | '-' :: cs => int32 (digits 0 cs * -1)
  | '+' :: cs => digits 0 cs
  | cs => digits 0 cs

def Node.setNext (n nx : Node) : Node :=
  match n with
  | .null => .null
  | .mk t k ix _ => .mk t k ix nx

def Node.setIndnxt (n ix : Node) : Node :=
  match n with
  | .null => .null
  | .mk t k _ nx => .mk t k ix nx

/-- The node behind the last one of a chain is set. -/
def Node.append : Node → Node → Node
  | .null, s => s
  | .mk t k ix nx, s => .mk t k ix (nx.append s)

/-- The nodes linked through `next`. -/
def chain : List Node → Node
  | [] => .null
  | n :: ns => n.setNext (chain ns)

/-- Arguments linked through `next`; the last one keeps what it has there. -/
def argChain : List Node → Node
  | [] => .null
  | [n] => n
  | n :: ns => n.setNext (argChain ns)

/-- The index expressions of a variable, linked through `indnxt`. -/
def indexChain : List Node → Node
  | [] => .null
  | e :: es => .mk 0 (.arr_access e) (indexChain es) .null

namespace Parser

open Prog

abbrev P (α : Type) : Type := Prog Parser α

/-- The functions the parser calls itself by, and the fuel for its loops. -/
structure Calls where
  fuel : Nat
  parse_expression : Int → P Node
  parse_statement : P Node

/-! ### Tokens -/

/-- A token; from the end of the text on there is `T_EOF`, and cleared memory behind it. -/
def tokenAt (s : Parser) (i : Nat) : Token := s.tokens[i]?.getD ⟨T_EOF, []⟩

def tokenType (s : Parser) (i : Nat) : Int := (tokenAt s i).type

def peek : P Token := gets fun s => tokenAt s s.tp1

def match_ (t : Int) : P Bool := gets fun s => decide (t = tokenType s s.tp1)

/-- The next token; nothing is returned at the end of the text. -/
def advance : P Token := do
  let t ← peek
  if t.type ≠ T_EOF then do
    update fun s => { s with tp1 := s.tp1 + 1 }
    pure t
  else undefined

def consume (t : Int) : P Token := do
  if ← match_ t then do
    let tok ← peek
    update fun s => { s with tp1 := s.tp1 + 1 }
    pure tok
  else exit 1

/-- The text of the token a node points at. -/
def tokenName (token_id : Int) : P Name := do
  let n ← gets fun s => s.tokens.length
  if token_id ≤ n then gets fun s => (tokenAt s token_id.toNat).name else undefined

/-- Skips a token of the given type if there is one. -/
def skip (t : Int) : P Unit := do
  if ← match_ t then do
    let _ ← consume t
    pure ()
  else pure ()

/-- The index of the next token, and of the last one read. -/
def thisToken : P Int := gets fun s => s.tp1

def lastToken : P Int := gets fun s => s.tp1 - 1

/-! ### Tables -/

/-- What an earlier text may have left is read. -/
def leaning {α : Type} (f : Parser → α) : P α := fun s => .ok (f s) { s with leans := true }

def setSymbol (s : Parser) (i : Nat) (f : Record → Record) : Parser :=
  { s with symtab := fun j => if j = i then f (s.symtab j) else s.symtab j }

def add_to_symtab (t : Token) (bp isg gt data_type lvl : Int) : P Unit := do
  let sp ← gets fun s => s.sp
  if sp < 1024 ∧ t.name.length < 64 then
    update fun s =>
      { setSymbol s s.sp fun r =>
          { r with name := t.name, type := data_type, offset := bp, gt_index := gt, is_global := isg
                   ptrlvl := lvl, ownDims := false, ownStruct := false } with sp := s.sp + 1 }
  else undefined

/-- The last of the first `n` symbols with a name. -/
def symbolBelow (symtab : Nat → Record) (name : Name) : Nat → Int
  | 0 => -1
  | i + 1 => if (symtab i).name = name then i else symbolBelow symtab name i

def find_symbol (name : Name) : P Int := gets fun s => symbolBelow s.symtab name s.sp

/-- A field of the entry of a symbol that was found. -/
def symbol {α : Type} (f : Record → α) (id : Int) : P α := fun s =>
  if 0 ≤ id ∧ id < s.sp then .ok (f (s.symtab id.toNat)) s else .wild s

/-- A field that this text may not have set. -/
def oldSymbol {α : Type} (own : Record → Bool) (f : Record → α) (id : Int) : P α := fun s =>
  if 0 ≤ id ∧ id < s.sp then
    .ok (f (s.symtab id.toNat)) (if own (s.symtab id.toNat) then s else { s with leans := true })
  else .wild s

/-- A change of a symbol's entry. -/
def modifySymbol (id : Int) (f : Record → Record) : P Unit :=
  if 0 ≤ id then update fun s => setSymbol s id.toNat f else undefined

def setDim (id : Int) (dc : Nat) (v : Int) : P Unit :=
  if dc < 256 then
    modifySymbol id fun r =>
      { r with dim_size := fun j => if j = dc then v else r.dim_size j
               ownDims := r.ownDims || decide (dc = 0) }
  else undefined

/-- The first of some structs with a name, -1 if there is none; no answer if a name is read
that is not there. -/
def structAmong (s : Parser) (name : Name) : List Nat → Option Int
  | [] => some (-1)
  | i :: is =>
      if (i : Int) ≤ s.old then none
      else match (s.struct_table i).name with
        | none => none
        | some n => if n = name then some i else structAmong s name is

def find_struct (name : Name) : P Int := do
  let found ← leaning fun s => structAmong s name (List.range (s.st_count + 1).toNat)
  match found with
  | some id => pure id
  | none => undefined

/-- The entry of a struct of this text. -/
def structEntry (id : Int) : P Structentry := do
  let e ← leaning fun s => if s.old < id then some (s.struct_table id.toNat) else none
  match e with
  | some e => pure e
  | none => undefined

/-- A change of the struct that is being defined. -/
def modifyStruct (f : Structentry → Structentry) : P Unit :=
  update fun s => { s with struct_table := fun j =>
    if j = s.st_count.toNat then f (s.struct_table j) else s.struct_table j }

/-- The struct table grows. -/
def newStruct : P Unit := do
  let n ← leaning fun s => s.st_count
  if n + 1 < 256 then update fun s => { s with st_count := s.st_count + 1 } else undefined

/-- The text starts a type with a token of type `t`. -/
def is_type (t : Int) : P Bool :=
  if t = K_INT ∨ t = K_CHAR ∨ t = K_VOID ∨ t = K_STRUCT then pure true
  else if t = T_IDENTIFIER then do
    let p ← peek
    let id ← find_struct p.name
    pure (decide (id ≠ -1))
  else pure false

def gt_count : P Nat := gets fun s => s.global_table.length

def append_node (node : Node) : P Unit :=
  let add (name : Name) : P Unit := do
    let n ← gt_count
    if n < 256 ∧ name.length < 60 then
      update fun s => { s with global_table := s.global_table ++ [⟨n, name, node⟩] }
    else undefined
  match node.kind? with
  | some (.func name _ _ _ _ _) => add name
  | some (.gvar name _ _ _) => add name
  | _ => pure ()

def get_precedence (t : Int) : Int :=
  if t = T_INC ∨ t = T_DEC ∨ t = '('.toNat ∨ t = '['.toNat ∨ t = '.'.toNat ∨ t = T_ARROW then 80
  else if t = '*'.toNat ∨ t = '/'.toNat ∨ t = '%'.toNat then 60
  else if t = '+'.toNat ∨ t = '-'.toNat then 40
  else if t = '<'.toNat ∨ t = '>'.toNat ∨ t = T_LEQ ∨ t = T_GEQ then 30
  else if t = T_EQ ∨ t = T_NEQ then 20
  else 0

/-! ### Expressions -/

/-- The member of the name, of the first `count` ones. -/
def memberNamed (e : Structentry) (name : Name) : Option Nat :=
  (List.range e.count.toNat).find? fun i => e.mem_name i = name

/-- The struct an expression stands for. -/
def structOf (left : Node) : P Int :=
  let ofSymbol : P Int := do
    let varname ← tokenName left.token_id
    let symidx ← find_symbol varname
    if symidx = -1 then pure (-1) else oldSymbol Record.ownStruct Record.struct_id symidx
  match left.kind? with
  | some (.var _ _ _) => ofSymbol
  | some (.gvar _ _ _ _) => ofSymbol
  | some (.mem_access _ _ _ _ struct_id) => pure struct_id
  | _ => pure (-1)

/-- The arguments of a call. -/
def callArgs (r : Calls) : P (List Node) :=
  cycle r.fuel (fun args => do
    if ← match_ ')'.toNat then pure (.inr args) else do
      let a ← r.parse_expression 0
      skip ','.toNat
      pure (.inl (args ++ [a]))) []

def led (r : Calls) (left : Node) : P Node := do
  let op ← advance
  if op.type = '('.toNat then do
    let name ← tokenName left.token_id
    let args ← callArgs r
    let _ ← consume ')'.toNat
    pure (.mk 0 (.call name (argChain args) args.length) .null .null)
  else if op.type = '.'.toNat ∨ op.type = T_ARROW then do
    let memtok ← consume T_IDENTIFIER
    let structid ← structOf left
    if structid = -1 then exit 1 else do
      let e ← structEntry structid
      match memberNamed e memtok.name with
      | none => undefined
      | some memidx =>
          if e.mem_type memidx = K_STRUCT then do
            let struct_id ← find_struct (e.mem_struct_name memidx)
            pure (.mk left.token_id (.mem_access left op.type (e.offset memidx) K_STRUCT struct_id)
              .null .null)
          else
            pure (.mk left.token_id
              (.mem_access left op.type (e.offset memidx) (e.mem_type memidx) (-1)) .null .null)
  else if op.type = T_INC then
    pure (.mk op.type (.postinc left) .null .null)
  else if op.type = T_DEC then
    pure (.mk op.type (.postdec left) .null .null)
  else do
    let right ← r.parse_expression (get_precedence op.type)
    pure (.mk 0 (.bin op.type (left.setNext .null) right) .null .null)

/-- The value of a character constant. -/
def charValue (raw_char : Name) : Int :=
  let c (i : Nat) : Char := raw_char.getD i '\x00'
  if c 1 = '\\' then
    if c 2 = 'n' then 10 else if c 2 = 't' then 9 else if c 2 = '0' then 0 else charType (c 2)
  else charType (c 1)

/-- The index expressions behind a variable. -/
def indexes (r : Calls) : P (List Node) :=
  cycle r.fuel (fun es => do
    if ← match_ '['.toNat then do
      let _ ← consume '['.toNat
      let e ← r.parse_expression 0
      let _ ← consume ']'.toNat
      pure (.inl (es ++ [e]))
    else pure (.inr es)) []

/-- The node of a name in use. -/
def useKind (e : Record) : Kind :=
  if e.is_global ≠ 0 then .gvar e.name e.type e.offset .null else .var e.type e.offset .null

/-- A use of a name. -/
def identifier (r : Calls) (t : Token) : P Node := do
  let id ← find_symbol t.name
  let kind ← (if id = -1 then pure (.var 0 0 .null) else
    symbol useKind id : P Kind)
  let token_id ← thisToken
  let _ ← advance
  let es ← indexes r
  pure (.mk token_id kind (indexChain es) .null)

def nud (r : Calls) : P Node := do
  let t ← peek
  if t.type = '*'.toNat then do
    let _ ← advance
    let token_id ← lastToken
    let e ← r.parse_expression 90
    pure (.mk token_id (.pointer e .null) .null .null)
  else if t.type = '-'.toNat then do
    let _ ← advance
    let e ← r.parse_expression 90
    pure (.mk 0 (.bin '-'.toNat (.mk 0 (.int 0) .null .null) e) .null .null)
  else if t.type = T_INC ∨ t.type = T_DEC then do
    let _ ← advance
    let token_id ← lastToken
    let e ← r.parse_expression 70
    pure (.mk token_id (if t.type = T_INC then .preinc e else .predec e) .null .null)
  else if t.type = '&'.toNat then do
    let _ ← advance
    let token_id ← lastToken
    let e ← r.parse_expression 90
    pure (.mk token_id (.addr e) .null .null)
  else if t.type = T_INT then do
    let token_id ← thisToken
    let _ ← advance
    pure (.mk token_id (.int (BitVec.ofInt 64 (atoi t.name))) .null .null)
  else if t.type = '('.toNat then do
    let _ ← advance
    let e ← r.parse_expression 0
    let _ ← consume ')'.toNat
    pure e
  else if t.type = T_CHAR then do
    let token_id ← thisToken
    let _ ← advance
    pure (.mk token_id (.int (BitVec.ofInt 64 (charValue t.name))) .null .null)
  else if t.type = T_IDENTIFIER then identifier r t
  else if t.type = '"'.toNat ∨ t.type = T_STRING then do
    let token_id ← thisToken
    let _ ← advance
    pure (.mk token_id (.str t.name) .null .null)
  else exit 1

def parse_expression (r : Calls) (p : Int) : P Node := do
  let left ← nud r
  cycle r.fuel (fun left => do
    let t ← peek
    if get_precedence t.type > p then do
      let left' ← led r left
      pure (.inl left')
    else pure (.inr left)) left

/-! ### Declarations -/

/-- The elements of an initializer list, up to its closing brace. -/
def elements (r : Calls) : P (List Node) :=
  cycle r.fuel (fun es => do
    if ← match_ '}'.toNat then pure (.inr es) else do
      let e ← r.parse_expression 0
      skip ','.toNat
      pure (.inl (es ++ [.mk 0 (.elem e) .null .null]))) []

/-- An initializer, if there is one; with the number of elements of the variable, `te` so far. -/
def initializer (r : Calls) (id te : Int) : P (Node × Int) := do
  let t ← peek
  if t.type = '='.toNat then do
    let _ ← advance
    if ← match_ '{'.toNat then do
      let _ ← consume '{'.toNat
      let es ← elements r
      let dim ← oldSymbol Record.ownDims (fun e => e.dim_size 0) id
      let te ← (if dim = 0 then do
          setDim id 0 es.length
          pure es.length
        else pure te : P Int)
      let _ ← consume '}'.toNat
      pure (chain es, te)
    else do
      let e ← r.parse_expression 0
      pure (e, te)
  else pure (.null, te)

/-- The bounds of a local array: their number, and the product of those that are given. -/
def localBounds (r : Calls) (id : Int) : P (Nat × Int) :=
  cycle r.fuel (fun b : Nat × Int => do
    let dc := b.1
    let te := b.2
    if ← match_ '['.toNat then do
      let _ ← consume '['.toNat
      if ← match_ ']'.toNat then
        if 0 < dc then exit 0 else do
          let _ ← consume ']'.toNat
          setDim id 0 0
          pure (.inl (dc + 1, te))
      else do
        let t ← consume T_INT
        let currsize := atoi t.name
        let _ ← consume ']'.toNat
        setDim id dc currsize
        pure (.inl (dc + 1, int32 (te * currsize)))
    else pure (.inr b)) (0, 1)

/-- The bounds of a global array. -/
def globalBounds (r : Calls) (id : Int) : P (Nat × Int) :=
  cycle r.fuel (fun b : Nat × Int => do
    let dc := b.1
    let te := b.2
    if ← match_ '['.toNat then do
      let _ ← consume '['.toNat
      let bound ← match_ T_INT
      let te' ← (if bound then do
          let t ← consume T_INT
          let currsize := atoi t.name
          setDim id dc currsize
          pure (int32 (te * currsize))
        else do
          setDim id dc 0
          pure te : P Int)
      let _ ← consume ']'.toNat
      pure (.inl (dc + 1, te'))
    else pure (.inr b)) (0, 1)

/-- The stars in front of a name. -/
def stars (r : Calls) : P Int :=
  cycle r.fuel (fun count => do
    if ← match_ '*'.toNat then do
      let _ ← consume '*'.toNat
      pure (.inl (count + 1))
    else pure (.inr count)) 0

/-- The struct a type names and its size, for a type that starts with a token of type `t`. -/
def typeStruct (t : Token) : P (Token × Int × Int) := do
  if t.type = K_STRUCT ∨ t.type = T_IDENTIFIER then do
    let rt ← (if t.type = K_STRUCT then consume T_IDENTIFIER else pure t : P Token)
    let struct_id ← find_struct rt.name
    if struct_id = -1 then exit 1 else do
      let e ← structEntry struct_id
      pure (rt, struct_id, e.size)
  else pure (t, -1, 4)

/-- The end of a declarator: another one follows, or the semicolon. -/
def more_declarators : P Bool := do
  if ← match_ ','.toNat then do
    let _ ← consume ','.toNat
    pure true
  else do
    let t ← peek
    if t.type = ';'.toNat then pure false else exit 1

/-- A declarator of a local variable: `curroffset` bytes are in front of it. -/
def declarator (r : Calls) (base_type struct_id base_size curroffset : Int) :
    P (Node × Int × Int) := do
  let count ← stars r
  let base_size := if 0 < count then 4 else base_size
  let d_tok ← consume T_IDENTIFIER
  let tid ← lastToken
  let bp ← gets fun s => s.bp
  let thisoffset := int32 (bp + curroffset)
  let n ← gt_count
  add_to_symtab d_tok thisoffset 0 n base_type count
  let id ← find_symbol d_tok.name
  let (dc, te) ← localBounds r id
  let (value, te) ← initializer r id te
  modifySymbol id fun e => { Record.complete e dc te struct_id with offset := thisoffset }
  pure (.mk tid (.var base_type thisoffset value) .null .null, base_size,
    int32 (curroffset + int32 (base_size * te)))

def parse_declaration (r : Calls) : P Node := do
  let t ← peek
  if ← is_type t.type then do
    let rt ← advance
    let (_, struct_id, base_size) ← typeStruct rt
    let (ns, curroffset) ← cycle r.fuel (fun d : List Node × Int × Int => do
      let (n, base_size, curroffset) ← declarator r rt.type struct_id d.2.1 d.2.2
      if ← more_declarators then pure (.inl (d.1 ++ [n], base_size, curroffset))
      else pure (.inr (d.1 ++ [n], curroffset))) ([], base_size, 0)
    update fun s => { s with bp := int32 (s.bp + curroffset) }
    let _ ← consume ';'.toNat
    pure (chain ns)
  else exit 1

/-- A declarator of a global variable. -/
def globalDeclarator (r : Calls) (base_type dt struct_id base_size : Int) : P (Node × Int) := do
  let count ← stars r
  let base_size := if 0 < count then 4 else base_size
  let d_tok ← consume T_IDENTIFIER
  let tid ← lastToken
  let gbr ← leaning fun s => s.gbr
  let n ← gt_count
  add_to_symtab d_tok gbr 1 n base_type count
  let id ← find_symbol d_tok.name
  let (dc, te) ← globalBounds r id
  let (value, te) ← initializer r id te
  modifySymbol id fun e => Record.complete e dc te struct_id
  update fun s => { s with gbr := int32 (s.gbr + int32 (base_size * te)) }
  pure (.mk tid (.gvar d_tok.name dt gbr value) .null .null, base_size)

def parse_global_declaration (r : Calls) : P Node := do
  let t ← peek
  if ← is_type t.type then do
    let t ← advance
    let (rt, struct_id, base_size) ← typeStruct t
    let ns ← cycle r.fuel (fun d : List Node × Int => do
      let (n, base_size) ← globalDeclarator r t.type rt.type struct_id d.2
      if ← more_declarators then pure (.inl (d.1 ++ [n], base_size))
      else pure (.inr (d.1 ++ [n]))) ([], base_size)
    let _ ← consume ';'.toNat
    pure (chain ns)
  else exit 1

/-! ### Statements -/

def parse_block (r : Calls) : P Node := do
  let _ ← consume '{'.toNat
  let head ← cycle r.fuel (fun head => do
    if ← match_ '}'.toNat then pure (.inr head) else do
      let s ← r.parse_statement
      pure (.inl (Node.append head s))) .null
  let _ ← consume '}'.toNat
  pure (.mk 0 (.block head) .null .null)

def parse_return (r : Calls) : P Node := do
  let _ ← consume K_RETURN
  let void ← match_ ';'.toNat
  let value ← (if void then pure .null else r.parse_expression 0 : P Node)
  let _ ← consume ';'.toNat
  pure (.mk 0 (.return_ value) .null .null)

def parse_if_stmt (r : Calls) : P Node := do
  let _ ← consume K_IF
  let token_id ← lastToken
  let _ ← consume '('.toNat
  let cond ← r.parse_expression 0
  let _ ← consume ')'.toNat
  let then_stmt ← r.parse_statement
  let more ← match_ K_ELSE
  let else_stmt ← (if more then do
      let _ ← consume K_ELSE
      r.parse_statement
    else pure .null : P Node)
  pure (.mk token_id (.if_ cond then_stmt else_stmt) .null .null)

def parse_while (r : Calls) : P Node := do
  let _ ← consume K_WHILE
  let token_id ← lastToken
  let _ ← consume '('.toNat
  let cond ← r.parse_expression 0
  let _ ← consume ')'.toNat
  let then_stmt ← r.parse_statement
  pure (.mk token_id (.while_ cond then_stmt 0) .null .null)

/-- The right side of an assignment to `left`, which is named by the token `token_id`. -/
def assignment (r : Calls) (left : Node) (token_id : Int) : P Node := do
  let _ ← consume '='.toNat
  let var_name ← tokenName token_id
  let sym_idx ← find_symbol var_name
  let offset ← (if sym_idx = -1 then pure 0 else symbol Record.offset sym_idx : P Int)
  let right ← r.parse_expression 0
  pure (.mk token_id (.assign offset '='.toNat left right) .null .null)

/-- The statement a loop repeats, with the last expression of a `for` behind it. -/
def forBody (body post_expr : Node) : Node :=
  match body with
  | .mk t (.block b) ix nx => .mk t (.block (b.append post_expr)) ix nx
  | _ => .mk 0 (.block (body.append post_expr)) .null .null

def parse_for (r : Calls) : P Node := do
  let _ ← consume K_FOR
  let for_idx ← lastToken
  let _ ← consume '('.toNat
  let init ← r.parse_statement
  let cond ← r.parse_expression 0
  let _ ← consume ';'.toNat
  let left ← r.parse_expression 0
  let t ← peek
  let post_expr ← (if t.type = '='.toNat then assignment r left left.token_id else pure left : P Node)
  let _ ← consume ')'.toNat
  let body ← r.parse_statement
  pure (.mk 0 (.block (init.setNext
    (.mk for_idx (.while_ cond (forBody body post_expr) 1) .null .null))) .null .null)

/-- The variable an assignment goes to, behind the stars. -/
def baseVar : Node → Node
  | .mk t (.pointer e v) ix nx => if e.isSome then baseVar e else .mk t (.pointer e v) ix nx
  | n => n

def parse_statement (r : Calls) : P Node := do
  let tok ← peek
  let t := tok.type
  if ← is_type t then parse_declaration r
  else if t = '{'.toNat then parse_block r
  else if t = K_IF then parse_if_stmt r
  else if t = K_WHILE then parse_while r
  else if t = K_BREAK then do
    let _ ← consume K_BREAK
    let _ ← consume ';'.toNat
    pure (.mk 0 .break_ .null .null)
  else if t = K_CONTINUE then do
    let _ ← consume K_CONTINUE
    let _ ← consume ';'.toNat
    pure (.mk 0 .continue_ .null .null)
  else if t = K_FOR then parse_for r
  else if t = K_RETURN then parse_return r
  else do
    let left ← r.parse_expression 0
    let t ← peek
    if t.type = '='.toNat then do
      let n ← assignment r left (baseVar left).token_id
      let _ ← consume ';'.toNat
      pure n
    else if t.type = ';'.toNat then do
      let _ ← advance
      pure left
    else exit 1

/-- The functions of the parser with some fuel. -/
def calls : Nat → Calls
  | 0 => ⟨0, fun _ => more, more⟩
  | n + 1 => ⟨n + 1, parse_expression (calls n), parse_statement (calls n)⟩

/-! ### Functions and structs -/

/-- The struct a parameter's type names; -1 if it names none. -/
def paramStruct (type_tok : Token) : P (Token × Int) := do
  if type_tok.type = K_STRUCT ∨ type_tok.type = T_IDENTIFIER then do
    let type_tok ← (if type_tok.type = K_STRUCT then consume T_IDENTIFIER else pure type_tok : P Token)
    let struct_id ← find_struct type_tok.name
    if struct_id = -1 then exit 1 else pure (type_tok, struct_id)
  else pure (type_tok, -1)

/-- A parameter of the function whose entry is `gt_index`. -/
def param (r : Calls) (gt_index : Int) : P Node := do
  let type_tok ← advance
  let (type_tok, struct_id) ← paramStruct type_tok
  let count ← stars r
  let a_tok ← consume T_IDENTIFIER
  let bp ← gets fun s => s.bp
  add_to_symtab a_tok bp 0 gt_index type_tok.type count
  let id ← find_symbol a_tok.name
  modifySymbol id fun e => { e with struct_id := struct_id, ownStruct := true }
  update fun s => { s with bp := int32 (s.bp - 4) }
  let token_id ← lastToken
  pure (.mk token_id (.var type_tok.type 0 .null) .null .null)

/-- The parameters, and how many there are: what is no type counts as one as well. -/
def params (r : Calls) (gt_index : Int) : P (List Node × Int) :=
  cycle r.fuel (fun d : List Node × Int => do
    if ← match_ ')'.toNat then pure (.inr d) else do
      let t ← peek
      let typed ← is_type t.type
      let args ← (if typed then do
          let a ← param r gt_index
          pure (d.1 ++ [a])
        else pure d.1 : P (List Node))
      skip ','.toNat
      pure (.inl (args, int32 (d.2 + 1)))) ([], 0)

def parse_function (r : Calls) : P Node := do
  let t ← peek
  if ← is_type t.type then do
    let rt ← advance
    let f_tok ← consume T_IDENTIFIER
    let gt ← gt_count
    add_to_symtab f_tok gt 1 gt rt.type 0
    update fun s => { s with bp := -12 }
    let _ ← consume '('.toNat
    let (args, argcount) ← params r gt
    let _ ← consume ')'.toNat
    if ← match_ ';'.toNat then do
      let _ ← consume ';'.toNat
      pure (.mk 0 (.func f_tok.name (chain args) .null rt.type 0 argcount) .null .null)
    else do
      update fun s => { s with bp := 0 }
      let body ← parse_block r
      let localvarbyte ← gets fun s => s.bp
      pure (.mk 0 (.func f_tok.name (chain args) body rt.type localvarbyte argcount) .null .null)
  else exit 1

/-- The bounds of a member that is an array; its size is `e_size` without them. -/
def memberBounds (r : Calls) (e_size : Int) : P Int :=
  cycle r.fuel (fun e_size => do
    if ← match_ '['.toNat then do
      let _ ← consume '['.toNat
      let arr_size ← cycle r.fuel (fun arr_size => do
        if ← match_ ']'.toNat then pure (.inr arr_size) else do
          let t ← consume T_INT
          pure (.inl (atoi t.name))) 0
      let _ ← consume ']'.toNat
      pure (.inl (int32 (e_size * arr_size)))
    else pure (.inr e_size)) e_size

/-- The size without bounds of a member, whose type starts with `type_tok`. -/
def memberSize (type_tok : Token) (isptr : Int) (struct_name : Name) : P Int := do
  if isptr ≠ 0 then pure 4
  else if type_tok.type = K_STRUCT then do
    let s_idx ← find_struct struct_name
    if s_idx = -1 then exit 1 else do
      let e ← structEntry s_idx
      pure e.size
  else pure 4

/-- The next multiple of 4. -/
def align4 (z : Int) : Int := int32 (z + 3) / 4 * 4

/-- A field of a table's row is set. -/
def setAt {α : Type} (f : Nat → α) (i : Nat) (v : α) : Nat → α := fun j => if j = i then v else f j

/-- The token a member's type starts with; a struct has room for 32 members. -/
def memberType (memcount : Nat) : P Token := do
  let type_tok ← advance
  if memcount < 32 then do
    modifyStruct fun e => { e with mem_type := setAt e.mem_type memcount type_tok.type }
    pure type_tok
  else undefined

/-- The member number `memcount` of a struct, at `curroff`. -/
def structMember (r : Calls) (memcount : Nat) (curroff : Int) : P Int := do
  let type_tok ← memberType memcount
  let struct_name ← (if type_tok.type = K_STRUCT then do
      let tname ← consume T_IDENTIFIER
      modifyStruct fun e => { e with mem_struct_name := setAt e.mem_struct_name memcount tname.name }
      pure tname.name
    else pure [] : P Name)
  let isptr ← stars r
  modifyStruct fun e => { e with isptr := setAt e.isptr memcount isptr }
  let e_size ← memberSize type_tok isptr struct_name
  let e_name ← consume T_IDENTIFIER
  modifyStruct fun e =>
    { e with mem_name := setAt e.mem_name memcount e_name.name, offset := setAt e.offset memcount curroff }
  let e_size ← memberBounds r e_size
  let _ ← consume ';'.toNat
  pure (int32 (curroff + align4 e_size))

/-- The name of a struct, if it has one. -/
def structName : P Unit := do
  if ← match_ T_IDENTIFIER then do
    let name ← consume T_IDENTIFIER
    modifyStruct fun e => { e with name := some name.name }
  else modifyStruct fun e => { e with name := none }

def parse_struct_def (r : Calls) : P Unit := do
  newStruct
  let _ ← consume K_STRUCT
  structName
  let _ ← consume '{'.toNat
  let (memcount, curroff) ← cycle r.fuel (fun d : Nat × Int => do
    if ← match_ '}'.toNat then pure (.inr d) else do
      let curroff ← structMember r d.1 d.2
      pure (.inl (d.1 + 1, curroff))) (0, 0)
  let _ ← consume '}'.toNat
  modifyStruct fun e => { e with size := curroff, count := memcount }

/-- A struct with a second name. -/
def parse_typedef (r : Calls) : P Unit := do
  let _ ← consume K_TYPEDEF
  let t ← peek
  if t.type = K_STRUCT then do
    parse_struct_def r
    let a_tok ← consume T_IDENTIFIER
    let _ ← consume ';'.toNat
    let e ← leaning fun s => s.struct_table s.st_count.toNat
    (if e.name = none ∨ e.name = some [] then pure () else newStruct : P Unit)
    modifyStruct fun _ => { e with name := some a_tok.name }
  else exit 1

/-! ### The text -/

/-- The counters a text starts with. -/
def initParser (s : Parser) : Parser := { s with tp1 := 0, sp := 0, global_table := [], bp := 0 }

/-- One round of the loop over the text; false at its end. -/
def topLevel (r : Calls) : P Bool := do
  let tok ← peek
  let t := tok.type
  let ahead ← gets fun s => tokenType s (s.tp1 + 2)
  if t = T_EOF then pure false
  else if t = K_STRUCT ∧ ahead = '{'.toNat then do
    parse_struct_def r
    pure true
  else if t = K_TYPEDEF then do
    parse_typedef r
    pure true
  else if ← is_type t then do
    let n ← (if ahead = '('.toNat then parse_function r else parse_global_declaration r : P Node)
    append_node n
    pure true
  else do
    update fun s => { s with tp1 := s.tp1 + 1 }
    pure true

def topLevels (r : Calls) : P Unit :=
  cycle r.fuel (fun _ : Unit => do
    if ← topLevel r then pure (.inl ()) else pure (.inr ())) ()

def parse_top_level (r : Calls) : P Unit := do
  update initParser
  topLevels r

/-- A new text: what the tables hold is of an earlier one. -/
def newText (tokens : List Token) (s : Parser) : Parser :=
  { s with tokens := tokens, old := s.st_count, leans := false }

/-- The text is parsed with some fuel. -/
def parse (fuel : Nat) (tokens : List Token) (s : Parser) : Out Parser Unit :=
  (do update initParser; parse_top_level (calls fuel) : P Unit) (newText tokens s)

/-- The variables before the first text. -/
def start : Parser :=
  { tokens := [], tp1 := 0, gbr := 0x100000, bp := 0, sp := 0, global_table := []
    symtab := fun _ => ⟨[], 0, 0, 0, 0, 0, 0, 0, fun _ => 0, 0, 0, false, false⟩
    struct_table := fun _ => ⟨none, fun _ => [], fun _ => 0, fun _ => [], fun _ => 0, 0, fun _ => 0, 0⟩
    st_count := -1, old := -1, leans := false }

end Parser

end Eke
