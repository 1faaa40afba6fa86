/-
The same text after different earlier texts.

A text whose parse reads nothing an earlier text left, and which declares no function and no
global variable, is parsed the same in every state the parser can be in.  An accepted text
that is parsed the same in all of them is one the parser skips: a function's entry keeps the size an
earlier text left there, a global variable stands where the addresses of earlier texts ended,
and a text that looks at the struct table finds it full, or finds the name of a struct that
is gone.
-/
import Eke.Compiler.Independence

namespace Eke

/-! ### The same outcome -/

mutual

/-- A tree without the places of its variables and members. -/
def Node.shape : Node → Node
  | .null => .null
  | .mk token_id kind indnxt next => .mk token_id kind.shape indnxt.shape next.shape

def Kind.shape : Kind → Kind
  | .func name args body rt localvarbyte argcount => .func name args.shape body.shape rt localvarbyte argcount
  | .block body => .block body.shape
  | .var dt _ value => .var dt 0 value.shape
  | .int v => .int v
  | .elem e => .elem e.shape
  | .bin op l r => .bin op l.shape r.shape
  | .if_ c t e => .if_ c.shape t.shape e.shape
  | .while_ c b isfor => .while_ c.shape b.shape isfor
  | .return_ v => .return_ v.shape
  | .call name args argcount => .call name args.shape argcount
  | .assign _ op l r => .assign 0 op l.shape r.shape
  | .str s => .str s
  | .gvar name dt _ value => .gvar name dt 0 value.shape
  | .pointer e v => .pointer e.shape v.shape
  | .addr e => .addr e.shape
  | .break_ => .break_
  | .continue_ => .continue_
  | .arr_access e => .arr_access e.shape
  | .mem_access e op _ dt _ => .mem_access e.shape op 0 dt 0
  | .preinc e => .preinc e.shape
  | .predec e => .predec e.shape
  | .postinc e => .postinc e.shape
  | .postdec e => .postdec e.shape

end

/-- Two entries say the same of a symbol, with the structs numbered another way. -/
structure Record.Same (number : Int → Int) (e e' : Record) : Prop where
  name : e'.name = e.name
  type : e'.type = e.type
  ptrlvl : e'.ptrlvl = e.ptrlvl
  offset : e'.offset = e.offset
  size : e'.size = e.size
  dim_cnt : e'.dim_cnt = e.dim_cnt
  dim_size : ∀ j : Nat, j < e.dim_cnt → e'.dim_size j = e.dim_size j
  struct_id : e'.struct_id = number e.struct_id

namespace Parser

open Prog

/-- Two accepted texts came to the same trees and symbols. -/
structure SameResult (s t : Parser) : Prop where
  trees : t.global_table.map (fun e => e.p.shape) = s.global_table.map fun e => e.p.shape
  sp : t.sp = s.sp
  symbols : ∃ number : Int → Int, Function.Injective number ∧ number (-1) = -1 ∧
    ∀ i, i < s.sp → (s.symtab i).Same number (t.symtab i)

inductive SameOutcome : Out Parser Unit → Out Parser Unit → Prop
  | accept {s t : Parser} (h : SameResult s t) : SameOutcome (.ok () s) (.ok () t)
  | abort {code : Int} {s t : Parser} : SameOutcome (.exit code s) (.exit code t)
  | undefined {s t : Parser} : SameOutcome (.wild s) (.wild t)

/-- The states of the parser: it starts, and goes on where a text was accepted or aborted. -/
inductive Reachable : Parser → Prop
  | start : Reachable start
  | accepted {n : Nat} {tokens : List Token} {s t : Parser} (hs : Reachable s)
      (h : parse n tokens s = .ok () t) : Reachable t
  | aborted {n : Nat} {tokens : List Token} {s t : Parser} {code : Int} (hs : Reachable s)
      (h : parse n tokens s = .exit code t) : Reachable t

/-- A parse that ends, with enough fuel. -/
def Ends (tokens : List Token) (s : Parser) (o : Out Parser Unit) : Prop :=
  ∃ n, parse n tokens s = o ∧ ∀ t, o ≠ .more t

/-- The text comes to the same whatever the earlier texts were. -/
def Independent (tokens : List Token) : Prop :=
  ∀ s s', Reachable s → Reachable s' → ∀ o, Ends tokens s o →
    ∃ o', Ends tokens s' o' ∧ SameOutcome o o'

/-- Nothing that may be of an earlier text is read, and no symbol is left with what was
there: the text declares no function and no global variable. -/
def Unaided (tokens : List Token) : Prop :=
  ∀ n, (parse n tokens start).state.leans = false ∧
    ∀ s, parse n tokens start = .ok () s → s.sp = 0

/-! ### Two parses side by side -/

/-- The state in front of the first token. -/
def begun (tokens : List Token) (s : Parser) : Parser := initParser (initParser (newText tokens s))

theorem parse_eq (n : Nat) (tokens : List Token) (s : Parser) :
    parse n tokens s = topLevels (calls n) (begun tokens s) := rfl

theorem begun_alike (tokens : List Token) (s t : Parser) : Alike (begun tokens s) (begun tokens t) :=
  ⟨rfl, rfl, rfl, rfl, rfl, fun _ hi => absurd hi (Nat.not_lt_zero _)⟩

theorem Unaided.matches {tokens : List Token} (h : Unaided tokens) (n : Nat) (s : Parser) :
    Matches Alike (parse n tokens start) (parse n tokens s) := by
  refine (topLevels_steady n).same _ _ (begun_alike tokens start s) fun hleans => ?_
  exact Bool.noConfusion ((h n).1.symm.trans hleans)

theorem Alike.sameResult {s t u : Parser} (hs : Alike u s) (ht : Alike u t) (hsp : u.sp = 0) :
    SameResult s t := by
  refine ⟨?_, ht.sp.symm.trans hs.sp, id, fun _ _ h => h, rfl, fun i hi => ?_⟩
  · rw [← ht.global_table, ← hs.global_table]
  · rw [← hs.sp, hsp] at hi
    exact absurd hi (Nat.not_lt_zero i)

/-- Two runs that go side by side with a third one come to the same. -/
theorem sameOutcome {o₁ o₂ o : Out Parser Unit} (hsp : ∀ s, o = .ok () s → s.sp = 0)
    (h₁ : Matches Alike o o₁) (h₂ : Matches Alike o o₂) (hmore : ∀ t, o₁ ≠ .more t) :
    (∀ t, o₂ ≠ .more t) ∧ SameOutcome o₁ o₂ := by
  cases o with
  | ok a u =>
      cases o₁ with
      | ok b s =>
          cases o₂ with
          | ok c t => exact ⟨nofun, .accept (h₁.2.sameResult h₂.2 (hsp u rfl))⟩
          | _ => exact h₂.elim
      | _ => exact h₁.elim
  | exit code u =>
      cases o₁ with
      | exit c s =>
          cases o₂ with
          | exit d t =>
              obtain rfl : code = c := h₁
              obtain rfl : code = d := h₂
              exact ⟨nofun, .abort⟩
          | _ => exact h₂.elim
      | _ => exact h₁.elim
  | wild u =>
      cases o₁ with
      | wild s =>
          cases o₂ with
          | wild t => exact ⟨nofun, .undefined⟩
          | _ => exact h₂.elim
      | _ => exact h₁.elim
  | more u =>
      cases o₁ with
      | more s => exact absurd rfl (hmore s)
      | _ => exact h₁.elim

theorem Unaided.independent {tokens : List Token} (h : Unaided tokens) : Independent tokens := by
  intro s s' _ _ o ho
  obtain ⟨n, rfl, hmore⟩ := ho
  obtain ⟨hmore', hsame⟩ := sameOutcome (h n).2 (h.matches n s) (h.matches n s') hmore
  exact ⟨parse n tokens s', ⟨n, rfl, hmore'⟩, hsame⟩

/-! ### Texts that are skipped -/

/-- A token that the parser does not skip between two functions. -/
def Starts (t : Int) : Prop :=
  t = K_INT ∨ t = K_CHAR ∨ t = K_VOID ∨ t = K_STRUCT ∨ t = T_IDENTIFIER ∨ t = K_TYPEDEF

/-- From a place on, the text is skipped up to its end. -/
inductive Skips (tokens : List Token) : Nat → Prop
  | done {i : Nat} (h : (tokens[i]?.getD ⟨T_EOF, []⟩).type = T_EOF) : Skips tokens i
  | skip {i : Nat} (h : (tokens[i]?.getD ⟨T_EOF, []⟩).type ≠ T_EOF)
      (hstart : ¬ Starts (tokens[i]?.getD ⟨T_EOF, []⟩).type) (next : Skips tokens (i + 1)) : Skips tokens i

variable {r : Calls} {s t u : Parser} {tokens : List Token}

theorem topLevel_end (h : tokenType s s.tp1 = T_EOF) : topLevel r s = .ok false s := by
  show (if tokenType s s.tp1 = T_EOF then (pure false : P Bool) else _) s = _
  rw [if_pos h]
  rfl

theorem is_type_word {t : Int} (h : t = K_INT ∨ t = K_CHAR ∨ t = K_VOID ∨ t = K_STRUCT) :
    is_type t s = .ok true s := by
  unfold is_type
  rw [if_pos h]
  rfl

theorem is_type_other {t : Int} (h : ¬ Starts t) : is_type t s = .ok false s := by
  unfold is_type
  rw [if_neg fun h' => h (by unfold Starts; tauto), if_neg fun h' => h (by unfold Starts; tauto)]
  rfl

theorem topLevel_skip (h : tokenType s s.tp1 ≠ T_EOF) (hstart : ¬ Starts (tokenType s s.tp1)) :
    topLevel r s = .ok true { s with tp1 := s.tp1 + 1 } := by
  show (if tokenType s s.tp1 = T_EOF then (pure false : P Bool)
    else if tokenType s s.tp1 = K_STRUCT ∧ tokenType s (s.tp1 + 2) = '{'.toNat then _
    else if tokenType s s.tp1 = K_TYPEDEF then _
    else is_type (tokenType s s.tp1) >>= _) s = _
  rw [if_neg h, if_neg fun h' => hstart (by unfold Starts; tauto),
    if_neg fun h' => hstart (by unfold Starts; tauto), bind_of_ok (is_type_other hstart)]
  rfl

/-- One round over the text, for the loop. -/
def round (r : Calls) (_ : Unit) : P (Unit ⊕ Unit) := do
  if ← topLevel r then pure (.inl ()) else pure (.inr ())

theorem topLevels_eq (r : Calls) : topLevels r = cycle r.fuel (round r) () := rfl

theorem round_of_ok {b : Bool} (h : topLevel r s = .ok b t) :
    round r () s = .ok (if b then .inl () else .inr ()) t := by
  refine (bind_of_ok h).trans ?_
  cases b with
  | true => rfl
  | false => rfl

theorem cycle_of_next {n : Nat} (h : topLevel r s = .ok true t) :
    cycle (n + 1) (round r) () s = cycle n (round r) () t := bind_of_ok (round_of_ok h)

theorem cycle_of_end {n : Nat} (h : topLevel r s = .ok false t) :
    cycle (n + 1) (round r) () s = .ok () t := bind_of_ok (round_of_ok h)

/-- A text that is skipped leaves the parser as it was, but for its place in the text. -/
theorem Skips.rounds {i : Nat} (h : Skips tokens i) : ∀ n s, s.tokens = tokens → s.tp1 = i →
    (cycle n (round r) () s).state.leans = s.leans ∧
      ∀ t, cycle n (round r) () s = .ok () t → t.sp = s.sp := by
  induction h with
  | done h =>
      intro n s hs hi
      subst hs hi
      cases n with
      | zero => exact ⟨rfl, nofun⟩
      | succ n =>
          rw [cycle_of_end (topLevel_end h)]
          refine ⟨rfl, fun t ht => ?_⟩
          cases ht
          rfl
  | skip h hstart _ ih =>
      intro n s hs hi
      subst hs hi
      cases n with
      | zero => exact ⟨rfl, nofun⟩
      | succ n =>
          rw [cycle_of_next (topLevel_skip h hstart)]
          exact ih n { s with tp1 := s.tp1 + 1 } rfl rfl

theorem Skips.unaided (h : Skips tokens 0) : Unaided tokens := by
  intro n
  obtain ⟨hleans, hsp⟩ := h.rounds (r := calls n) (calls n).fuel (begun tokens start) rfl rfl
  exact ⟨hleans, fun s hs => hsp s hs⟩

/-! ### A full struct table -/

/-- There are as many structs of earlier texts as there is room for. -/
def Full (s : Parser) : Prop := s.st_count = 255 ∧ s.old = 255

theorem newStruct_full (h : Full s) : ∃ t, newStruct s = .wild t := by
  refine ⟨{ s with leans := true }, ?_⟩
  show (if s.st_count + 1 < 256 then _ else undefined : P Unit) { s with leans := true } = _
  rw [if_neg (by rw [h.1]; decide)]
  rfl

theorem parse_struct_def_full (h : Full s) : ∃ t, parse_struct_def r s = .wild t := by
  obtain ⟨t, ht⟩ := newStruct_full h
  exact ⟨t, bind_of_wild ht⟩

theorem find_struct_full (h : Full s) (name : Name) : ∃ t, find_struct name s = .wild t := by
  have hnone : structAmong s name (List.range (s.st_count + 1).toNat) = none := by
    rw [h.1]
    show structAmong s name (List.range (255 + 1)) = none
    rw [List.range_succ_eq_map, structAmong, if_pos (by rw [h.2]; decide)]
  refine ⟨{ s with leans := true }, ?_⟩
  refine (bind_of_ok (a := none) ?_).trans rfl
  exact congrArg (fun found => Out.ok found { s with leans := true }) hnone

theorem is_type_full (h : Full s) : ∃ t, is_type T_IDENTIFIER s = .wild t := by
  obtain ⟨t, ht⟩ := find_struct_full h (tokenAt s s.tp1).name
  refine ⟨t, ?_⟩
  unfold is_type
  rw [if_neg (by decide), if_pos rfl]
  have hpeek : peek s = .ok (tokenAt s s.tp1) s := rfl
  rw [bind_of_ok hpeek, bind_of_wild ht]

theorem consume_ok {tt : Int} {a : Token} (h : consume tt s = .ok a t) : t = { s with tp1 := s.tp1 + 1 } := by
  obtain ⟨b, u, hb, h⟩ := bind_ok_iff.mp h
  obtain ⟨-, rfl⟩ := Out.ok.inj hb
  split at h
  · cases h
    rfl
  · cases h

theorem parse_typedef_full (h : Full s) {a : Unit} : parse_typedef r s ≠ .ok a t := by
  intro ht
  obtain ⟨tok, s₁, h₁, ht⟩ := bind_ok_iff.mp ht
  obtain rfl := consume_ok h₁
  obtain ⟨tok', s₂, h₂, ht⟩ := bind_ok_iff.mp ht
  obtain ⟨-, rfl⟩ := Out.ok.inj h₂
  split at ht
  · obtain ⟨u, hu⟩ := parse_struct_def_full (r := r) (s := { s with tp1 := s.tp1 + 1 }) h
    rw [bind_of_wild hu] at ht
    cases ht
  · cases ht

/-- With a full table, what the parser does not skip makes a symbol, or goes wrong. -/
theorem topLevel_full (hr : Quiet r) (h : Full s) (hstart : Starts (tokenType s s.tp1)) {b : Bool}
    (ht : topLevel r s = .ok b t) : 0 < t.sp := by
  change (if tokenType s s.tp1 = T_EOF then (pure false : P Bool)
    else if tokenType s s.tp1 = K_STRUCT ∧ tokenType s (s.tp1 + 2) = '{'.toNat then
      parse_struct_def r >>= fun _ => pure true
    else if tokenType s s.tp1 = K_TYPEDEF then parse_typedef r >>= fun _ => pure true
    else is_type (tokenType s s.tp1) >>= _) s = _ at ht
  have hend : tokenType s s.tp1 ≠ T_EOF := by
    intro hend
    rw [hend] at hstart
    revert hstart
    unfold Starts
    decide
  rw [if_neg hend] at ht
  split at ht
  · obtain ⟨u, hu⟩ := parse_struct_def_full (r := r) h
    rw [bind_of_wild hu] at ht
    cases ht
  split at ht
  · obtain ⟨a, u, hu, -⟩ := bind_ok_iff.mp ht
    exact absurd hu (parse_typedef_full h)
  rename_i htypedef
  by_cases hid : tokenType s s.tp1 = T_IDENTIFIER
  · obtain ⟨u, hu⟩ := is_type_full h
    rw [hid, bind_of_wild hu] at ht
    cases ht
  · have hword : tokenType s s.tp1 = K_INT ∨ tokenType s s.tp1 = K_CHAR ∨
        tokenType s s.tp1 = K_VOID ∨ tokenType s s.tp1 = K_STRUCT := by
      unfold Starts at hstart
      tauto
    rw [bind_of_ok (is_type_word hword), if_pos rfl] at ht
    obtain ⟨n, u, ⟨-, hpos⟩, ht⟩ := (construct_opens hr _).split ht
    obtain ⟨_, v, ⟨hsp, -⟩, ht⟩ := (append_node_symbols n).split ht
    cases ht
    rw [hsp]
    exact hpos

theorem cycle_grows (hr : Quiet r) (n : Nat) : Keeps Grows (cycle n (round r) ()) := by
  refine growing.cycle (fun _ => growing.bind ((topLevel_opens hr).mono fun _ _ h => h.toGrows) fun b => ?_) n ()
  split
  · exact growing.pure _
  · exact growing.pure _

/-- A text that is accepted there without a symbol is one that is skipped. -/
theorem skips_of_full (hr : Quiet r) : ∀ n s, Full s → cycle n (round r) () s = .ok () t → t.sp = 0 →
    Skips s.tokens s.tp1 := by
  intro n
  induction n with
  | zero => exact fun _ _ => nofun
  | succ n ih =>
      intro s hfull h hsp
      by_cases hend : tokenType s s.tp1 = T_EOF
      · exact .done hend
      by_cases hstart : Starts (tokenType s s.tp1)
      · exfalso
        obtain ⟨c, u, hc, h⟩ := bind_ok_iff.mp h
        obtain ⟨b, u', hb, hc⟩ := bind_ok_iff.mp hc
        have hpos := topLevel_full hr hfull hstart hb
        have hgrows : Grows u' t := by
          cases b with
          | true =>
              obtain ⟨rfl, rfl⟩ := Out.ok.inj hc
              exact cycle_grows hr n _ () t h
          | false =>
              obtain ⟨rfl, rfl⟩ := Out.ok.inj hc
              cases h
              exact Grows.refl _
        have := hgrows.sp
        omega
      · rw [cycle_of_next (topLevel_skip hend hstart)] at h
        exact .skip hend hstart (ih { s with tp1 := s.tp1 + 1 } hfull h hsp)

/-! ### The states the texts are compared in -/

/-- `int g[7];` -/
def seven : List Token :=
  [⟨K_INT, ['i', 'n', 't']⟩, ⟨T_IDENTIFIER, ['g']⟩, ⟨'['.toNat, ['[']⟩, ⟨T_INT, ['7']⟩, ⟨']'.toNat, [']']⟩,
    ⟨';'.toNat, [';']⟩]

theorem seven_reachable : ∃ s, Reachable s ∧ s.gbr = 0x10001C ∧ (s.symtab 0).size = 7 := by
  obtain ⟨s, hs, hgbr, hsize⟩ :
      ∃ s, parse 10 seven start = .ok () s ∧ s.gbr = 0x10001C ∧ (s.symtab 0).size = 7 :=
    ⟨_, rfl, by decide, by decide⟩
  exact ⟨s, .accepted .start hs, hgbr, hsize⟩

/-- `struct S { };` -/
def oneStruct : List Token :=
  [⟨K_STRUCT, ['s', 't', 'r', 'u', 'c', 't']⟩, ⟨T_IDENTIFIER, ['S']⟩, ⟨'{'.toNat, ['{']⟩, ⟨'}'.toNat, ['}']⟩,
    ⟨';'.toNat, [';']⟩]

theorem topLevel_struct (h : tokenType s s.tp1 = K_STRUCT) (hbrace : tokenType s (s.tp1 + 2) = '{'.toNat)
    (hdef : parse_struct_def r s = .ok () t) : topLevel r s = .ok true t := by
  change (if tokenType s s.tp1 = T_EOF then (pure false : P Bool)
    else if tokenType s s.tp1 = K_STRUCT ∧ tokenType s (s.tp1 + 2) = '{'.toNat then
      parse_struct_def r >>= fun _ => pure true
    else _) s = _
  rw [if_neg (by rw [h]; decide), if_pos ⟨h, hbrace⟩, bind_of_ok hdef]
  rfl

theorem oneStruct_parse (h : s.st_count + 1 < 256) :
    ∃ t, parse 10 oneStruct s = .ok () t ∧ t.st_count = s.st_count + 1 := by
  have hnew : newStruct (begun oneStruct s) =
      .ok () { begun oneStruct s with leans := true, st_count := s.st_count + 1 } := by
    show (if s.st_count + 1 < 256 then _ else undefined : P Unit) { begun oneStruct s with leans := true } = _
    rw [if_pos h]
    rfl
  obtain ⟨t, hdef, htokens, htp1, hcount⟩ : ∃ t, parse_struct_def (calls 10) (begun oneStruct s) = .ok () t ∧
      t.tokens = oneStruct ∧ t.tp1 = 4 ∧ t.st_count = s.st_count + 1 :=
    ⟨_, (bind_of_ok hnew).trans rfl, rfl, rfl, rfl⟩
  have hstep : topLevel (calls 10) (begun oneStruct s) = .ok true t := topLevel_struct rfl rfl hdef
  have hsemi : tokenType t t.tp1 = ';'.toNat := by
    unfold tokenType tokenAt
    rw [htokens, htp1]
    rfl
  have hend : tokenType { t with tp1 := t.tp1 + 1 } (t.tp1 + 1) = T_EOF := by
    unfold tokenType tokenAt
    rw [htokens, htp1]
    rfl
  refine ⟨{ t with tp1 := t.tp1 + 1 }, ?_, hcount⟩
  rw [parse_eq, topLevels_eq]
  refine (cycle_of_next hstep).trans ?_
  refine (cycle_of_next (topLevel_skip (by rw [hsemi]; decide) ?_)).trans (cycle_of_end (topLevel_end hend))
  rw [hsemi]
  unfold Starts
  decide

theorem structs_reachable : ∀ n : Nat, n ≤ 256 → ∃ s, Reachable s ∧ s.st_count + 1 = n := by
  intro n
  induction n with
  | zero => exact fun _ => ⟨start, .start, rfl⟩
  | succ n ih =>
      intro hn
      obtain ⟨s, hs, hcount⟩ := ih (by omega)
      obtain ⟨t, ht, hcount'⟩ := oneStruct_parse (s := s) (by omega)
      exact ⟨t, .accepted hs ht, by omega⟩

/-! ### The first symbol in two states -/

theorem parse_opens {n : Nat} {tokens : List Token} (h : parse n tokens s = .ok () t) :
    Opens (begun tokens s) t := topLevels_opens (calls_quiet n) _ _ _ h

/-- With a symbol, an accepted text shows that the first earlier text was `seven`. -/
theorem first_differs {n m : Nat} {tokens : List Token} {t' : Parser} (h : parse n tokens start = .ok () t)
    (h' : parse m tokens s = .ok () t') (hgbr : s.gbr = 0x10001C) (hsize : (s.symtab 0).size = 7)
    (hpos : 0 < t.sp) : ¬ SameResult t t' := by
  intro hsame
  obtain ⟨number, -, -, hsymbols⟩ := hsame.symbols
  have h₀ := hsymbols 0 hpos
  have hfirst := (parse_opens h).first rfl rfl hpos
  have hfirst' := (parse_opens h').first rfl rfl (by rw [hsame.sp]; exact hpos)
  rw [h₀.size, h₀.offset] at hfirst'
  change (_ ∧ _) ∨ _ = s.gbr at hfirst'
  change (_ = (s.symtab 0).size ∧ _) ∨ _ at hfirst'
  rw [hgbr, hsize] at hfirst'
  change (_ = 0 ∧ _) ∨ _ = 0x100000 at hfirst
  omega

/-- The text is accepted when it is the first one. -/
def Accepted (tokens : List Token) : Prop := ∃ n s, parse n tokens start = .ok () s

theorem Independent.skips {tokens : List Token} (h : Independent tokens) (hacc : Accepted tokens) :
    Skips tokens 0 := by
  obtain ⟨n, u, hu⟩ := hacc
  have hends : Ends tokens start (.ok () u) := ⟨n, hu, nofun⟩
  have hempty : u.sp = 0 := by
    obtain ⟨s, hs, hgbr, hsize⟩ := seven_reachable
    obtain ⟨o, ⟨m, ho, -⟩, hsame⟩ := h start s .start hs _ hends
    cases hsame with
    | accept hsame =>
        by_contra hne
        exact first_differs hu ho hgbr hsize (Nat.pos_of_ne_zero hne) hsame
  obtain ⟨s, hs, hcount⟩ := structs_reachable 256 (Nat.le_refl _)
  obtain ⟨o, ⟨m, ho, -⟩, hsame⟩ := h start s .start hs _ hends
  cases hsame with
  | accept hsame =>
      have hfull : Full (begun tokens s) := by
        have hcount' : s.st_count = 255 := by omega
        exact ⟨hcount', hcount'⟩
      exact skips_of_full (calls_quiet m) _ (begun tokens s) hfull ho (hsame.sp.trans hempty)

/-! ### Parsing after earlier compilations -/

/-- A text that reads and leaves nothing of earlier texts is parsed the same after any of them.
Of the accepted texts these are the ones that are skipped, and no others. -/
theorem parsing_independent (tokens : List Token) :
    (Unaided tokens → Independent tokens) ∧ (Accepted tokens → (Independent tokens ↔ Skips tokens 0)) :=
  ⟨Unaided.independent, fun hacc => ⟨fun h => h.skips hacc, fun h => h.unaided.independent⟩⟩

/-- `;` -/
def semicolon : List Token := [⟨';'.toNat, [';']⟩]

theorem semicolon_skips : Skips semicolon 0 := by
  refine .skip (by decide) ?_ (.done rfl)
  unfold Starts
  decide

theorem parsing_independent_semicolon :
    Independent semicolon ∧ (Independent semicolon ↔ Skips semicolon 0) :=
  ⟨(parsing_independent semicolon).1 semicolon_skips.unaided,
    (parsing_independent semicolon).2 ⟨10, _, rfl⟩⟩

/-- `int h;` -/
def oneGlobal : List Token :=
  [⟨K_INT, ['i', 'n', 't']⟩, ⟨T_IDENTIFIER, ['h']⟩, ⟨';'.toNat, [';']⟩]

/-- After `int g[7];` the variable stands at another address than at the start. -/
theorem parsing_dependent : ¬ Independent oneGlobal := by
  intro h
  have hsp := ((h.skips ⟨10, _, rfl⟩).unaided 10).2 _ rfl
  revert hsp
  decide

end Parser

end Eke
