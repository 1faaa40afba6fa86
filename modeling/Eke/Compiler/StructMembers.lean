/-
The members of a struct.

A struct definition is parsed here as the parser does it, but with the definition as the text has it
for a value: the types of the members, their stars and their bounds.  What the parser leaves in the
table is said of this value: the places of the members are those of slots laid one behind another, with
the bytes that `parse_struct_def` counts for a member set aside.
-/
import Eke.Compiler.Coverage
import Eke.Compiler.Precedence
import Eke.Lib.Slots

namespace Eke

/-- A member as the text declares it. -/
structure Member where
  type_tok : Token
  struct_name : Name
  isptr : Int
  /-- The last number in each pair of brackets. -/
  bounds : List Name

structure Definition where
  name : Option Name
  members : List Member

/-- The number some digits stand for. -/
def decimal (w : Name) : Nat := w.foldl (fun n c => 10 * n + (c.toNat - '0'.toNat)) 0

def Numeral (w : Name) : Prop := ∀ c ∈ w, '0' ≤ c ∧ c ≤ '9'

/-- The number of elements of a member. -/
def Member.elements (m : Member) : Nat := (m.bounds.map decimal).prod

namespace Parser

open Prog

/-! ### Numbers -/

theorem digits_foldl : ∀ {w : Name} (n : Nat), Numeral w →
    digits (int32 n) w = int32 (w.foldl (fun n c => 10 * n + (c.toNat - '0'.toNat)) n : Nat) := by
  intro w
  induction w with
  | nil => exact fun _ _ => rfl
  | cons c w ih =>
      intro n h
      obtain ⟨hzero, hnine⟩ := h c (List.mem_cons_self ..)
      have hle : '0'.toNat ≤ c.toNat := hzero
      have hnext : int32 (int32 n * 10 + (c.toNat - '0'.toNat)) =
          int32 (10 * n + (c.toNat - '0'.toNat) : Nat) := by
        rw [BinExpr.int32_digit]
        congr 1
        omega
      rw [digits, if_pos ⟨hzero, hnine⟩, hnext, List.foldl_cons]
      exact ih _ fun d hd => h d (List.mem_cons_of_mem _ hd)

/-- The number that `atoi` reads is the decimal one, as an `int`. -/
theorem atoi_decimal {w : Name} (h : Numeral w) : atoi w = int32 (decimal w) := by
  rw [BinExpr.atoi_digits h]
  exact digits_foldl 0 h

/-! ### The definition a text has -/

/-- What stands in a pair of brackets. -/
def readExtent (r : Calls) : P Name :=
  cycle r.fuel (fun w => do
    if ← match_ ']'.toNat then pure (.inr w) else do
      let t ← consume T_INT
      pure (.inl t.name)) []

/-- The size of a member with its bounds, and these. -/
def readBounds (r : Calls) (e_size : Int) : P (Int × List Name) :=
  cycle r.fuel (fun d : Int × List Name => do
    if ← match_ '['.toNat then do
      let _ ← consume '['.toNat
      let w ← readExtent r
      let _ ← consume ']'.toNat
      pure (.inl (int32 (d.1 * atoi w), d.2 ++ [w]))
    else pure (.inr d)) (e_size, [])

/-- The place behind a member, and the member. -/
def readMember (r : Calls) (memcount : Nat) (curroff : Int) : P (Int × Member) := do
  let type_tok ← memberType memcount
  let struct_name ← (if type_tok.type = K_STRUCT then do
      let tname ← consume T_IDENTIFIER
      modifyStruct fun e => { e with mem_struct_name := setAt e.mem_struct_name memcount tname.name }
      pure tname.name
    else pure [] : P Name)
  let isptr ← stars r
  modifyStruct fun e => { e with isptr := setAt e.isptr memcount isptr }
  let e_size ← memberSize type_tok isptr struct_name
  let e_name ← consume T_IDENTIFIER
  modifyStruct fun e =>
    { e with mem_name := setAt e.mem_name memcount e_name.name, offset := setAt e.offset memcount curroff }
  let (e_size, bounds) ← readBounds r e_size
  let _ ← consume ';'.toNat
  pure (int32 (curroff + align4 e_size), ⟨type_tok, struct_name, isptr, bounds⟩)

def readName : P (Option Name) := do
  if ← match_ T_IDENTIFIER then do
    let name ← consume T_IDENTIFIER
    modifyStruct fun e => { e with name := some name.name }
    pure (some name.name)
  else do
    modifyStruct fun e => { e with name := none }
    pure none

/-- The members up to the closing brace, with their number and the place behind them. -/
def readMembers (r : Calls) : P (Nat × Int × List Member) :=
  cycle r.fuel (fun d : Nat × Int × List Member => do
    if ← match_ '}'.toNat then pure (.inr d) else do
      let (curroff, m) ← readMember r d.1 d.2.1
      pure (.inl (d.1 + 1, curroff, d.2.2 ++ [m]))) (0, 0, [])

/-- A struct definition with the definition the text has, behind the new entry of the table. -/
def readBody (r : Calls) : P Definition := do
  let _ ← consume K_STRUCT
  let name ← readName
  let _ ← consume '{'.toNat
  let (memcount, curroff, members) ← readMembers r
  let _ ← consume '}'.toNat
  modifyStruct fun e => { e with size := curroff, count := memcount }
  pure ⟨name, members⟩

def readStruct (r : Calls) : P Definition := do
  newStruct
  readBody r

/-! ### The same steps -/

variable {α : Type} {r : Calls} {s t u v : Parser}

theorem extent_tells (r : Calls) : Tells atoi (cycle r.fuel (fun arr_size => do
    if ← match_ ']'.toNat then pure (.inr arr_size) else do
      let t ← consume T_INT
      pure (.inl (atoi t.name))) 0) (readExtent r) := by
  refine tells_cycle (f := atoi) (fun w => tells_then fun b => ?_) r.fuel []
  cases b with
  | true => exact fun _ => rfl
  | false => exact tells_then fun _ _ => rfl

theorem bounds_tells (r : Calls) (e_size : Int) :
    Tells Prod.fst (memberBounds r e_size) (readBounds r e_size) := by
  refine tells_cycle (f := Prod.fst) (fun d => tells_then fun b => ?_) r.fuel (e_size, [])
  cases b with
  | true =>
      exact tells_then fun _ => tells_bind (extent_tells r) fun w => tells_then fun _ _ => rfl
  | false => exact fun _ => rfl

theorem member_tells (r : Calls) (memcount : Nat) (curroff : Int) :
    Tells Prod.fst (structMember r memcount curroff) (readMember r memcount curroff) :=
  tells_then fun _ => tells_then fun _ => tells_then fun _ => tells_then fun _ =>
    tells_then fun e_size => tells_then fun _ => tells_then fun _ =>
      tells_bind (bounds_tells r e_size) fun _ => tells_then fun _ _ => rfl

theorem name_tells : Tells (fun _ => ()) structName readName := by
  refine tells_then fun b => ?_
  cases b with
  | true =>
      exact tells_then fun name => tells_with _ _
  | false => exact tells_with _ _

theorem members_tells (r : Calls) : Tells (fun d => (d.1, d.2.1)) (cycle r.fuel (fun d : Nat × Int => do
    if ← match_ '}'.toNat then pure (.inr d) else do
      let curroff ← structMember r d.1 d.2
      pure (.inl (d.1 + 1, curroff))) (0, 0)) (readMembers r) := by
  refine tells_cycle (f := fun d : Nat × Int × List Member => (d.1, d.2.1))
    (fun d => tells_then fun b => ?_) r.fuel (0, 0, [])
  cases b with
  | true => exact fun _ => rfl
  | false =>
      exact tells_bind (member_tells r d.1 d.2.1) fun _ _ => rfl

/-- The parser does just what is done here. -/
theorem parse_struct_def_tells (r : Calls) : Tells (fun _ => ()) (parse_struct_def r) (readStruct r) :=
  tells_then fun _ => tells_then fun _ => tells_bind name_tells fun _ => tells_then fun _ =>
    tells_bind (members_tells r) fun _ => tells_then fun _ => tells_with _ _

/-! ### What is left as it is -/

/-- The same text and the same structs. -/
structure Unbuilt (s t : Parser) : Prop where
  tokens : t.tokens = s.tokens
  st_count : t.st_count = s.st_count
  old : t.old = s.old
  structs : t.struct_table = s.struct_table

theorem Unbuilt.refl (s : Parser) : Unbuilt s s := ⟨rfl, rfl, rfl, rfl⟩

theorem Unbuilt.trans (s t u : Parser) (h : Unbuilt s t) (h' : Unbuilt t u) : Unbuilt s u :=
  ⟨h'.tokens.trans h.tokens, h'.st_count.trans h.st_count, h'.old.trans h.old, h'.structs.trans h.structs⟩

theorem Unbuilt.rules : Rules fun α (x : P α) => Always Unbuilt x := always_rules Unbuilt.refl Unbuilt.trans

theorem symbol_unbuilt (f : Record → α) (id : Int) : Always Unbuilt (symbol f id) := by
  intro s
  unfold symbol
  split
  · exact Unbuilt.refl s
  · exact Unbuilt.refl s

theorem oldSymbol_unbuilt (own : Record → Bool) (f : Record → α) (id : Int) :
    Always Unbuilt (oldSymbol own f id) := by
  intro s
  unfold oldSymbol
  split
  · show Unbuilt s (if own _ then s else { s with leans := true })
    split
    · exact Unbuilt.refl s
    · exact ⟨rfl, rfl, rfl, rfl⟩
  · exact Unbuilt.refl s

theorem modifySymbol_unbuilt (id : Int) (f : Record → Record) : Always Unbuilt (modifySymbol id f) := by
  unfold modifySymbol
  split
  · exact fun _ => ⟨rfl, rfl, rfl, rfl⟩
  · exact Unbuilt.rules.undefined

/-- Neither expressions nor declarations change a struct. -/
theorem unbuilt : Entering fun α (x : P α) => Always Unbuilt x where
  toRules := Unbuilt.rules
  peek := Unbuilt.refl
  match_ _ := Unbuilt.refl
  forward _ := ⟨rfl, rfl, rfl, rfl⟩
  tokenName i := by
    refine Unbuilt.rules.bind Unbuilt.refl fun n => ?_
    split
    · exact Unbuilt.refl
    · exact Unbuilt.rules.undefined
  thisToken := Unbuilt.refl
  lastToken := Unbuilt.refl
  find_symbol _ := Unbuilt.refl
  kind := symbol_unbuilt _
  offset := symbol_unbuilt _
  struct_id := oldSymbol_unbuilt _ _
  leaning _ _ := ⟨rfl, rfl, rfl, rfl⟩
  bp := Unbuilt.refl
  gt_count := Unbuilt.refl
  setBp _ _ := ⟨rfl, rfl, rfl, rfl⟩
  setGbr _ _ := ⟨rfl, rfl, rfl, rfl⟩
  add_to_symtab t bp isg gt data_type lvl := by
    refine Unbuilt.rules.bind Unbuilt.refl fun sp => ?_
    split
    · exact fun _ => ⟨rfl, rfl, rfl, rfl⟩
    · exact Unbuilt.rules.undefined
  dims := oldSymbol_unbuilt _ _
  setDim id dc v := by
    unfold setDim
    split
    · exact modifySymbol_unbuilt _ _
    · exact Unbuilt.rules.undefined
  variable_ _ _ _ _ _ := modifySymbol_unbuilt _ _
  global _ _ _ _ := modifySymbol_unbuilt _ _
  parameter _ _ := modifySymbol_unbuilt _ _

theorem looking : Looking fun α (x : P α) => Always Unbuilt x := unbuilt.toLooking

/-- The struct that is being defined is changed by `f`. -/
structure Alters (f : Structentry → Structentry) (s t : Parser) : Prop where
  tokens : t.tokens = s.tokens
  st_count : t.st_count = s.st_count
  old : t.old = s.old
  entry : t.struct_table s.st_count.toNat = f (s.struct_table s.st_count.toNat)
  others : ∀ j, j ≠ s.st_count.toNat → t.struct_table j = s.struct_table j

theorem Unbuilt.alters (h : Unbuilt s t) : Alters id s t :=
  ⟨h.tokens, h.st_count, h.old, by rw [h.structs]; rfl, fun j _ => by rw [h.structs]⟩

theorem Alters.trans {f g : Structentry → Structentry} (h : Alters f s t) (h' : Alters g t u) :
    Alters (g ∘ f) s u := by
  have hentry := h'.entry
  have hothers := h'.others
  rw [h.st_count] at hentry hothers
  refine ⟨h'.tokens.trans h.tokens, h'.st_count.trans h.st_count, h'.old.trans h.old, ?_, fun j hj => ?_⟩
  · rw [hentry, h.entry]
    rfl
  · rw [hothers j hj, h.others j hj]

theorem modifyStruct_alters (f : Structentry → Structentry) : Keeps (Alters f) (modifyStruct f) := by
  intro s a t h
  cases h
  exact ⟨rfl, rfl, rfl, if_pos rfl, fun j hj => if_neg hj⟩

/-! ### Structs by their names -/

/-- A struct of this text has a name. -/
def hasName (s : Parser) (name : Name) (i : Nat) : Bool :=
  decide (s.old < i ∧ (s.struct_table i).name = some name)

/-- The struct of this text that a name stands for. -/
def structNamed (s : Parser) (name : Name) : Option Nat :=
  (List.range (s.st_count + 1).toNat).find? (hasName s name)

theorem structAmong_find {name : Name} {id : Int} : ∀ {is : List Nat}, structAmong s name is = some id →
    (id = -1 ∧ is.find? (hasName s name) = none) ∨ ∃ i, is.find? (hasName s name) = some i ∧ id = i := by
  intro is
  induction is with
  | nil =>
      intro h
      exact .inl ⟨(Option.some.inj h).symm, rfl⟩
  | cons i is ih =>
      intro h
      unfold structAmong at h
      split at h
      · cases h
      rename_i hold
      cases hname : (s.struct_table i).name with
      | none =>
          rw [hname] at h
          cases h
      | some n =>
          rw [hname] at h
          simp only at h
          by_cases hn : n = name
          · rw [if_pos hn] at h
            have hi : hasName s name i = true := decide_eq_true ⟨Int.not_le.mp hold, by rw [hname, hn]⟩
            exact .inr ⟨i, List.find?_cons_of_pos hi, (Option.some.inj h).symm⟩
          · rw [if_neg hn] at h
            have hi : ¬ hasName s name i = true := fun hi =>
              hn (Option.some.inj (hname.symm.trans (of_decide_eq_true hi).2))
            rw [List.find?_cons_of_neg hi]
            exact ih h

theorem find_struct_named {name : Name} {id : Int} (h : find_struct name s = .ok id t) :
    Unbuilt s t ∧ ((id = -1 ∧ structNamed s name = none) ∨ ∃ i, structNamed s name = some i ∧ id = i) := by
  refine ⟨(find_struct_rule looking name).keeps _ _ _ h, ?_⟩
  obtain ⟨found, u, hfound, h⟩ := bind_ok_iff.mp h
  obtain ⟨hall, -⟩ := Out.ok.inj hfound
  cases found with
  | none => cases h
  | some i =>
      cases h
      exact structAmong_find hall

theorem structEntry_ok {id : Int} {e : Structentry} (h : structEntry id s = .ok e t) :
    e = s.struct_table id.toNat := by
  obtain ⟨found, u, hfound, h⟩ := bind_ok_iff.mp h
  obtain rfl : (if s.old < id then some (s.struct_table id.toNat) else none) = found :=
    (Out.ok.inj hfound).1
  by_cases hold : s.old < id
  · rw [if_pos hold] at h
    cases h
    rfl
  · rw [if_neg hold] at h
    cases h

/-- The bytes the parser counts for an element of a member. -/
def counted (s : Parser) (m : Member) : Int :=
  if m.isptr = 0 ∧ m.type_tok.type = K_STRUCT then
    match structNamed s m.struct_name with
    | some i => (s.struct_table i).size
    | none => 4
  else 4

theorem memberSize_ok {type_tok : Token} {isptr e_size : Int} {name : Name}
    (h : memberSize type_tok isptr name s = .ok e_size t) (bounds : List Name) :
    Unbuilt s t ∧ e_size = counted s ⟨type_tok, name, isptr, bounds⟩ ∧
      (isptr = 0 → type_tok.type = K_STRUCT → structNamed s name ≠ none) := by
  refine ⟨(memberSize_rule looking type_tok isptr name).keeps _ _ _ h, ?_⟩
  unfold memberSize at h
  unfold counted
  split at h
  · rename_i hptr
    cases h
    exact ⟨(if_neg fun hall => hptr hall.1).symm, fun hzero => absurd hzero hptr⟩
  rename_i hptr
  split at h
  · rename_i htype
    obtain ⟨id, u, hid, h⟩ := bind_ok_iff.mp h
    obtain ⟨hu, ⟨rfl, -⟩ | ⟨i, hi, rfl⟩⟩ := find_struct_named hid
    · cases h
    · rw [if_neg (by omega)] at h
      obtain ⟨e, v, he, h⟩ := bind_ok_iff.mp h
      cases h
      refine ⟨?_, fun _ _ => by rw [hi]; nofun⟩
      rw [if_pos ⟨not_not.mp hptr, htype⟩, hi, structEntry_ok he, hu.structs, Int.toNat_natCast]
  · rename_i htype
    cases h
    exact ⟨(if_neg fun hall => htype hall.2).symm, fun _ hstruct => absurd hstruct htype⟩

/-! ### The bounds -/

/-- The numbers among the tokens have digits alone. -/
def Numerals (tokens : List Token) : Prop := ∀ tok ∈ tokens, tok.type = T_INT → Numeral tok.name

section

open Lexer

variable {c : Char} {cs text : Name}

theorem typeAt_number (h256 : c.toNat < 256) (h : typeAt (c :: cs) = T_INT) : isdigit c = true := by
  have hwords : ∀ k ∈ keywords, k.2 ≠ T_INT := by
    decide
  have hword : ∀ word, tokenize word ≠ T_INT := by
    intro word
    rcases tokenize_mem word with hname | ⟨k, hk, hword⟩
    · rw [hname]
      decide
    · rw [hword]
      exact hwords k hk
  have hchar : charType c ≠ T_INT := by
    unfold charType
    split
    · show (c.toNat : Int) ≠ 257
      omega
    · show (c.toNat : Int) - 256 ≠ 257
      omega
  by_contra hdigit
  have hc : charAt (c :: cs) 0 = c := rfl
  unfold typeAt at h
  simp only [hc, if_neg hdigit] at h
  split_ifs at h
  all_goals first
    | exact hword _ h
    | exact hchar h
    | exact absurd h (by decide)

theorem lex_numerals : ∀ {n : Nat} {code : Name} {p line : Nat} {ts : List LexToken},
    CText code → text.drop p = code → lex n code p line = some ts →
    ∀ t ∈ ts, t.type = T_INT → Numeral (gettokenname text t) := by
  intro n
  induction n with
  | zero =>
      intro code p line ts _ _ h
      cases h
  | succ n ih =>
      intro code p line ts htext hdrop h
      cases code with
      | nil =>
          obtain rfl := Option.some.inj h
          intro t ht htype
          rw [List.mem_singleton.mp ht] at htype
          exact absurd htype (show T_EOF ≠ T_INT by decide)
      | cons c cs =>
          have hnext : text.drop (p + 1) = cs := by
            rw [← List.drop_drop, hdrop]
            rfl
          have htail : CText cs := fun d hd => htext d (List.mem_cons_of_mem _ hd)
          simp only [lex] at h
          split_ifs at h
          · exact ih htail hnext h
          · exact ih htail hnext h
          · have hsuffix : (cs.drop 1).dropWhile (· ≠ '\n') <:+ c :: cs :=
              ((List.dropWhile_suffix _).trans (List.drop_suffix 1 cs)).trans (List.suffix_cons c cs)
            refine ih (fun d hd => htext d (hsuffix.subset hd)) ?_ h
            have hle := hsuffix.length_le
            rw [Nat.add_sub_assoc hle, ← List.drop_drop, hdrop]
            exact (List.suffix_iff_eq_drop.mp hsuffix).symm
          · obtain ⟨ts', hts', rfl⟩ := Option.map_eq_some_iff.mp h
            have hbehind : text.drop (p + findlen (c :: cs)) = (c :: cs).drop (findlen (c :: cs)) := by
              rw [← List.drop_drop, hdrop]
            have hrest := ih (fun d hd => htext d (List.mem_of_mem_drop hd)) hbehind hts'
            intro t ht htype
            rcases List.mem_cons.mp ht with rfl | ht
            · have hdigit := typeAt_number (htext c (List.mem_cons_self ..)).2 htype
              have hname : gettokenname text ⟨typeAt (c :: cs), p, findlen (c :: cs), line⟩ =
                  (c :: cs).takeWhile isdigit := by
                unfold gettokenname
                rw [hdrop, (number_at hdigit).1]
                exact ((List.prefix_iff_eq_take.mp (List.takeWhile_prefix _))).symm
              rw [hname]
              exact fun d hd => of_decide_eq_true (List.all_eq_true.mp List.all_takeWhile d hd)
            · exact hrest t ht htype

/-- The lexer makes a number of digits alone. -/
theorem init_lexer_numerals {ts : List LexToken} (htext : CText text)
    (h : init_lexer text = some ts) : Numerals (texts text ts) := by
  intro tok htok htype
  obtain ⟨t, ht, rfl⟩ := List.mem_map.mp htok
  exact lex_numerals htext List.drop_zero h t ht htype

end

theorem consume_number_text {tok : Token} (hnum : Numerals s.tokens) (h : consume T_INT s = .ok tok t) :
    Numeral tok.name := by
  have htype := consume_type h
  rw [consume_token htype] at h
  cases h
  unfold tokenType at htype
  unfold tokenAt at htype ⊢
  cases hget : s.tokens[s.tp1]? with
  | none => exact fun c hc => absurd hc List.not_mem_nil
  | some tok =>
      rw [hget] at htype
      exact hnum tok (List.mem_of_getElem? hget) htype

theorem readExtent_ok {w : Name} (hnum : Numerals s.tokens) (h : readExtent r s = .ok w t) :
    Unbuilt s t ∧ Numeral w := by
  refine cycle_keeps (I := fun w u => Unbuilt s u ∧ Numeral w) (R := fun w u => Unbuilt s u ∧ Numeral w) ?_
    _ _ _ _ _ ⟨Unbuilt.refl s, fun c hc => absurd hc List.not_mem_nil⟩ h
  intro w u c v hinv h
  obtain ⟨hu, hw⟩ := hinv
  obtain ⟨b, _, hb, h⟩ := bind_ok_iff.mp h
  cases hb
  split at h
  · cases h
    exact ⟨hu, hw⟩
  · obtain ⟨tok, v, htok, h⟩ := bind_ok_iff.mp h
    cases h
    rw [← hu.tokens] at hnum
    exact ⟨hu.trans _ _ _ ((consume_rule looking T_INT).keeps _ _ _ htok), consume_number_text hnum htok⟩

theorem int32_mul (a b c : Int) (h : int32 a = int32 b) : int32 (int32 (a * int32 c)) = int32 (b * c) := by
  rw [int32_int32, Int.mul_comm a, int32_mul_congr (int32_int32 c), Int.mul_comm c]
  exact int32_mul_congr h c

/-- The size of a member with its bounds is that of its elements, as an `int`. -/
theorem readBounds_ok {e_size : Int} {d : Int × List Name} (hnum : Numerals s.tokens)
    (h : readBounds r e_size s = .ok d t) :
    Unbuilt s t ∧ int32 d.1 = int32 (e_size * (d.2.map decimal).prod) := by
  refine cycle_keeps (I := fun d u => Unbuilt s u ∧ int32 d.1 = int32 (e_size * (d.2.map decimal).prod))
    (R := fun d u => Unbuilt s u ∧ int32 d.1 = int32 (e_size * (d.2.map decimal).prod)) ?_
    _ _ _ _ _ ⟨Unbuilt.refl s, ?_⟩ h
  · intro d u c v hinv h
    obtain ⟨hu, hd⟩ := hinv
    obtain ⟨b, _, hb, h⟩ := bind_ok_iff.mp h
    cases hb
    split at h
    · obtain ⟨_, u₁, h₁, h⟩ := ((consume_rule looking _).keeps).split h
      obtain ⟨w, u₂, h₂, h⟩ := bind_ok_iff.mp h
      obtain ⟨_, u₃, h₃, h⟩ := ((consume_rule looking _).keeps).split h
      cases h
      have hu₁ := hu.trans _ _ _ h₁
      obtain ⟨h₂, hw⟩ := readExtent_ok (by rw [hu₁.tokens]; exact hnum) h₂
      refine ⟨(hu₁.trans _ _ _ h₂).trans _ _ _ h₃, ?_⟩
      show int32 (int32 (d.1 * atoi w)) = _
      rw [atoi_decimal hw, int32_mul _ _ _ hd, List.map_append, List.prod_append, Nat.cast_mul, mul_assoc]
      simp
    · cases h
      exact ⟨hu, hd⟩
  · simp

/-! ### One member -/

/-- The same structs, by their names and sizes. -/
structure Sized (s t : Parser) : Prop where
  st_count : t.st_count = s.st_count
  old : t.old = s.old
  names : ∀ j, (t.struct_table j).name = (s.struct_table j).name
  sizes : ∀ j, (t.struct_table j).size = (s.struct_table j).size

theorem Sized.trans (h : Sized s t) (h' : Sized t u) : Sized s u :=
  ⟨h'.st_count.trans h.st_count, h'.old.trans h.old, fun j => (h'.names j).trans (h.names j),
    fun j => (h'.sizes j).trans (h.sizes j)⟩

theorem Sized.structNamed (h : Sized s t) (name : Name) : structNamed t name = structNamed s name := by
  have hname : hasName t name = hasName s name := by
    funext i
    unfold hasName
    rw [h.old, h.names]
  unfold Parser.structNamed
  rw [h.st_count, hname]

theorem Sized.counted (h : Sized s t) (m : Member) : counted t m = counted s m := by
  unfold Parser.counted
  rw [h.structNamed]
  cases Parser.structNamed s m.struct_name with
  | none => rfl
  | some i =>
      simp only [h.sizes]

/-- The struct that is being defined keeps its name and its size, and its members get the places
`place` gives them. -/
structure Extends (place : (Nat → Int) → Nat → Int) (s t : Parser) : Prop where
  tokens : t.tokens = s.tokens
  sized : Sized s t
  offset : (t.struct_table s.st_count.toNat).offset = place (s.struct_table s.st_count.toNat).offset
  others : ∀ j, j ≠ s.st_count.toNat → t.struct_table j = s.struct_table j

theorem Alters.extends {f : Structentry → Structentry} (h : Alters f s t) (place : (Nat → Int) → Nat → Int)
    (hname : ∀ e, (f e).name = e.name) (hsize : ∀ e, (f e).size = e.size)
    (hoffset : ∀ e, (f e).offset = place e.offset) : Extends place s t := by
  have hall : ∀ j, (t.struct_table j).name = (s.struct_table j).name ∧
      (t.struct_table j).size = (s.struct_table j).size := by
    intro j
    by_cases hj : j = s.st_count.toNat
    · rw [hj, h.entry]
      exact ⟨hname _, hsize _⟩
    · rw [h.others j hj]
      exact ⟨rfl, rfl⟩
  refine ⟨h.tokens, ⟨h.st_count, h.old, fun j => (hall j).1, fun j => (hall j).2⟩, ?_, h.others⟩
  rw [h.entry]
  exact hoffset _

theorem Unbuilt.extends (h : Unbuilt s t) : Extends id s t :=
  h.alters.extends id (fun _ => rfl) (fun _ => rfl) fun _ => rfl

theorem Extends.trans {place place' : (Nat → Int) → Nat → Int} (h : Extends place s t)
    (h' : Extends place' t u) : Extends (place' ∘ place) s u := by
  have hoffset := h'.offset
  have hothers := h'.others
  rw [h.sized.st_count] at hoffset hothers
  refine ⟨h'.tokens.trans h.tokens, h.sized.trans h'.sized, ?_, fun j hj => ?_⟩
  · rw [hoffset, h.offset]
    rfl
  · rw [hothers j hj, h.others j hj]

theorem align4_int32 {a b : Int} (h : int32 a = int32 b) : align4 a = align4 b := by
  unfold align4
  rw [int32_add_congr h]

/-- What the parser does for a member: it stands at `curroff`, and the next one behind the bytes counted
for its elements. -/
structure Placed (memcount : Nat) (curroff curroff' : Int) (m : Member) (s t : Parser) : Prop where
  built : Extends (fun offset => setAt offset memcount curroff) s t
  next : curroff' = int32 (curroff + align4 (counted s m * m.elements))
  known : m.isptr = 0 → m.type_tok.type = K_STRUCT → structNamed s m.struct_name ≠ none

theorem memberType_extends (memcount : Nat) : Keeps (Extends id) (memberType memcount) := by
  intro s type_tok t h
  obtain ⟨_, u, hu, h⟩ := (advance_rule looking).keeps.split h
  split at h
  · obtain ⟨_, v, hv, h⟩ := (modifyStruct_alters _).split h
    cases h
    exact hu.extends.trans (hv.extends id (fun _ => rfl) (fun _ => rfl) fun _ => rfl)
  · cases h

theorem memberName_extends (type_tok : Token) (memcount : Nat) : Keeps (Extends id)
    (if type_tok.type = K_STRUCT then do
      let tname ← consume T_IDENTIFIER
      modifyStruct fun e => { e with mem_struct_name := setAt e.mem_struct_name memcount tname.name }
      pure tname.name
    else pure [] : P Name) := by
  intro s name t h
  split at h
  · obtain ⟨tname, u, hu, h⟩ := (consume_rule looking _).keeps.split h
    obtain ⟨_, v, hv, h⟩ := (modifyStruct_alters _).split h
    cases h
    exact hu.extends.trans (hv.extends id (fun _ => rfl) (fun _ => rfl) fun _ => rfl)
  · cases h
    exact (Unbuilt.refl s).extends

theorem readMember_ok {memcount : Nat} {curroff : Int} {d : Int × Member} (hnum : Numerals s.tokens)
    (h : readMember r memcount curroff s = .ok d t) : Placed memcount curroff d.1 d.2 s t := by
  obtain ⟨type_tok, s₁, h₁, h⟩ := (memberType_extends memcount).split h
  obtain ⟨struct_name, s₂, h₂, h⟩ := (memberName_extends type_tok memcount).split h
  obtain ⟨isptr, s₃, h₃, h⟩ := (stars_rule looking).keeps.split h
  obtain ⟨_, s₄, h₄, h⟩ := (modifyStruct_alters _).split h
  obtain ⟨e_size, s₅, h₅, h⟩ := bind_ok_iff.mp h
  obtain ⟨e_name, s₆, h₆, h⟩ := (consume_rule looking _).keeps.split h
  obtain ⟨_, s₇, h₇, h⟩ := (modifyStruct_alters _).split h
  obtain ⟨d, s₈, h₈, h⟩ := bind_ok_iff.mp h
  obtain ⟨_, s₉, h₉, h⟩ := (consume_rule looking _).keeps.split h
  cases h
  have hfirst : Extends id s s₄ := ((h₁.trans h₂).trans h₃.extends).trans
    (h₄.extends id (fun _ => rfl) (fun _ => rfl) fun _ => rfl)
  obtain ⟨hunbuilt, hsize, hknown⟩ := memberSize_ok h₅ d.2
  have hplace : Extends (fun offset => setAt offset memcount curroff) s s₇ :=
    ((hfirst.trans hunbuilt.extends).trans h₆.extends).trans
      (h₇.extends (fun offset => setAt offset memcount curroff) (fun _ => rfl) (fun _ => rfl) fun _ => rfl)
  obtain ⟨hbounds, hsum⟩ := readBounds_ok (by rw [hplace.tokens]; exact hnum) h₈
  refine ⟨(hplace.trans hbounds.extends).trans h₉.extends, ?_, ?_⟩
  · rw [← hfirst.sized.counted, ← hsize]
    exact congrArg (fun z => int32 (curroff + z)) (align4_int32 hsum)
  · rw [← hfirst.sized.structNamed]
    exact hknown

/-! ### All members -/

/-- The members as slots at their places. -/
def slots (used aside : Member → Int) (ms : List Member) (offset : Nat → Int) : List Slot :=
  ms.mapIdx fun i m => ⟨offset i, used m, aside m⟩

/-- The bytes the parser counts for a member. -/
def asideOf (s : Parser) (m : Member) : Int := align4 (counted s m * m.elements)

/-- The members are laid one behind another up to `curroff`. -/
structure AllPlaced (ms : List Member) (memcount : Nat) (curroff : Int) (s t : Parser) : Prop where
  tokens : t.tokens = s.tokens
  sized : Sized s t
  others : ∀ j, j ≠ s.st_count.toNat → t.struct_table j = s.struct_table j
  memcount : memcount = ms.length
  laid : ∀ used, Laid int32 0 (slots used (asideOf s) ms (t.struct_table s.st_count.toNat).offset) curroff
  known : ∀ m ∈ ms, m.isptr = 0 → m.type_tok.type = K_STRUCT → structNamed s m.struct_name ≠ none

theorem AllPlaced.unbuilt {ms : List Member} {memcount : Nat} {curroff : Int}
    (h : AllPlaced ms memcount curroff s t) (hu : Unbuilt t u) : AllPlaced ms memcount curroff s u :=
  ⟨hu.tokens.trans h.tokens, h.sized.trans hu.extends.sized, by rw [hu.structs]; exact h.others, h.memcount,
    by rw [hu.structs]; exact h.laid, h.known⟩

theorem AllPlaced.next {ms : List Member} {m : Member} {memcount : Nat} {curroff curroff' : Int}
    (h : AllPlaced ms memcount curroff s t) (hm : Placed memcount curroff curroff' m t u) :
    AllPlaced (ms ++ [m]) (memcount + 1) curroff' s u := by
  have hoffset := hm.built.offset
  have hothers := hm.built.others
  rw [h.sized.st_count] at hoffset hothers
  have hold : ∀ used, slots used (asideOf s) ms (u.struct_table s.st_count.toNat).offset =
      slots used (asideOf s) ms (t.struct_table s.st_count.toNat).offset := by
    intro used
    refine List.mapIdx_eq_mapIdx_iff.mpr fun i hi => ?_
    have hne : i ≠ memcount := by
      rw [h.memcount]
      exact Nat.ne_of_lt hi
    rw [hoffset, setAt, if_neg hne]
  refine ⟨hm.built.tokens.trans h.tokens, h.sized.trans hm.built.sized, fun j hj => ?_, ?_, fun used => ?_,
    fun m' hm' => ?_⟩
  · rw [hothers j hj, h.others j hj]
  · rw [List.length_append, h.memcount]
    rfl
  · have hnew : Laid int32 curroff [⟨curroff, used m, asideOf s m⟩] curroff' := by
      have hend : curroff' = int32 (curroff + asideOf s m) := by
        rw [hm.next, h.sized.counted]
        rfl
      rw [hend]
      exact Laid.cons (s := ⟨curroff, used m, asideOf s m⟩) .nil
    have hplace : (u.struct_table s.st_count.toNat).offset ms.length = curroff := by
      rw [hoffset, setAt, if_pos h.memcount.symm]
    unfold slots at hold ⊢
    rw [List.mapIdx_concat, hold, hplace]
    exact (h.laid used).append hnew
  · rcases List.mem_append.mp hm' with hm' | hm'
    · exact h.known m' hm'
    · rw [List.mem_singleton.mp hm', ← h.sized.structNamed]
      exact hm.known

theorem readMembers_ok {d : Nat × Int × List Member} (hnum : Numerals s.tokens)
    (h : readMembers r s = .ok d t) : AllPlaced d.2.2 d.1 d.2.1 s t := by
  refine cycle_keeps (I := fun d u => AllPlaced d.2.2 d.1 d.2.1 s u)
    (R := fun d u => AllPlaced d.2.2 d.1 d.2.1 s u) ?_ _ _ _ _ _ ?_ h
  · intro d u c v hd h
    obtain ⟨b, _, hb, h⟩ := bind_ok_iff.mp h
    cases hb
    split at h
    · cases h
      exact hd
    · obtain ⟨e, w, he, h⟩ := bind_ok_iff.mp h
      cases h
      exact hd.next (readMember_ok (by rw [hd.tokens]; exact hnum) he)
  · exact ⟨rfl, ⟨rfl, rfl, fun _ => rfl, fun _ => rfl⟩, fun _ _ => rfl, rfl, fun _ => .nil, nofun⟩

/-! ### A definition -/

/-- One more struct, with a name. -/
structure Next (name : Option Name) (s t : Parser) : Prop where
  tokens : t.tokens = s.tokens
  st_count : t.st_count = s.st_count + 1
  old : t.old = s.old
  name : (t.struct_table (s.st_count + 1).toNat).name = name
  others : ∀ j, j ≠ (s.st_count + 1).toNat → t.struct_table j = s.struct_table j

/-- The struct that was defined last. -/
def lastStruct (s : Parser) : Structentry := s.struct_table s.st_count.toNat

/-- What a struct definition does, from `s` to `t`; its members are read from `v` on. -/
structure Defined (d : Definition) (s v t : Parser) : Prop where
  inner : Next d.name s v
  size : (lastStruct v).size = (s.struct_table (s.st_count + 1).toNat).size
  outer : Next d.name s t
  count : (lastStruct t).count = d.members.length
  laid : ∀ used, Laid int32 0 (slots used (asideOf v) d.members (lastStruct t).offset) (lastStruct t).size
  known : ∀ m ∈ d.members, m.isptr = 0 → m.type_tok.type = K_STRUCT → structNamed v m.struct_name ≠ none

theorem newStruct_ok {a : Unit} (h : newStruct s = .ok a t) :
    t.tokens = s.tokens ∧ t.st_count = s.st_count + 1 ∧ t.old = s.old ∧
      t.struct_table = s.struct_table := by
  obtain ⟨n, u, hn, h⟩ := bind_ok_iff.mp h
  cases hn
  split at h
  · cases h
    exact ⟨rfl, rfl, rfl, rfl⟩
  · cases h

theorem readName_alters {name : Option Name} (h : readName s = .ok name t) :
    Alters (fun e => { e with name := name }) s t := by
  obtain ⟨b, _, hb, h⟩ := bind_ok_iff.mp h
  cases hb
  split at h
  · obtain ⟨tok, u, hu, h⟩ := (consume_rule looking _).keeps.split h
    obtain ⟨_, v, hv, h⟩ := (modifyStruct_alters _).split h
    cases h
    exact hu.alters.trans hv
  · obtain ⟨_, v, hv, h⟩ := (modifyStruct_alters _).split h
    cases h
    exact hv

/-- What a struct definition does. -/
theorem readStruct_ok {d : Definition} (hnum : Numerals s.tokens) (h : readStruct r s = .ok d t) :
    ∃ v, Defined d s v t := by
  obtain ⟨_, s₁, h₁, h⟩ := bind_ok_iff.mp h
  obtain ⟨htokens, hcount, hold, hstructs⟩ := newStruct_ok h₁
  obtain ⟨_, s₂, h₂, h⟩ := (consume_rule looking _).keeps.split h
  obtain ⟨name, s₃, h₃, h⟩ := bind_ok_iff.mp h
  obtain ⟨_, s₄, h₄, h⟩ := (consume_rule looking _).keeps.split h
  obtain ⟨e, s₅, h₅, h⟩ := bind_ok_iff.mp h
  obtain ⟨_, s₆, h₆, h⟩ := (consume_rule looking _).keeps.split h
  obtain ⟨_, s₇, h₇, h⟩ := (modifyStruct_alters _).split h
  cases h
  have hname : Alters (fun e => { e with name := name }) s₁ s₄ :=
    (h₂.alters.trans (readName_alters h₃)).trans h₄.alters
  have hall := (readMembers_ok (by rw [hname.tokens, htokens]; exact hnum) h₅).unbuilt h₆
  have hst : s₄.st_count = s.st_count + 1 := hname.st_count.trans hcount
  have hst' := hall.sized.st_count
  have hentry := hname.entry
  have hothers := hname.others
  have hentry' := h₇.entry
  have hothers' := h₇.others
  have hmembers := hall.others
  have hlaid := hall.laid
  have hlast : t.st_count = s.st_count + 1 := h₇.st_count.trans (hst'.trans hst)
  rw [hcount, hstructs] at hentry hothers
  rw [hst', hst] at hentry' hothers'
  rw [hst] at hmembers hlaid
  have htext : t.tokens = s.tokens := (h₇.tokens.trans hall.tokens).trans (hname.tokens.trans htokens)
  have hfirst : t.old = s.old := h₇.old.trans (hall.sized.old.trans (hname.old.trans hold))
  refine ⟨s₄, ⟨hname.tokens.trans htokens, hst, hname.old.trans hold, ?_, hothers⟩, ?_,
    ⟨htext, hlast, hfirst, ?_, fun j hj => ?_⟩, ?_, fun used => ?_, hall.known⟩
  · rw [hentry]
  · unfold lastStruct
    rw [hst, hentry]
  · rw [hentry']
    exact (hall.sized.names _).trans (by rw [hentry])
  · rw [hothers' j hj, hmembers j hj, hothers j hj]
  · unfold lastStruct
    rw [hlast, hentry', hall.memcount]
  · unfold lastStruct
    rw [hlast, hentry']
    exact hlaid used

end Parser

end Eke
