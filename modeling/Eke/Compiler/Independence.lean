/-
Parsing after earlier texts.

What the parser does with a text it does whatever earlier texts left in its tables, as long
as it reads none of it: the two runs go on side by side.  A text that is accepted and
declares a function or a global variable is different: its first symbol keeps a field of an
earlier text, or stands at an address that depends on one.
-/
import Eke.Compiler.SymbolTable

namespace Eke

/-! ### Two runs -/

/-- Two entries that agree in what this text has set. -/
structure Record.Alike (r r' : Record) : Prop where
  name : r.name = r'.name
  type : r.type = r'.type
  offset : r.offset = r'.offset
  gt_index : r.gt_index = r'.gt_index
  is_global : r.is_global = r'.is_global
  ptrlvl : r.ptrlvl = r'.ptrlvl
  ownDims : r.ownDims = r'.ownDims
  ownStruct : r.ownStruct = r'.ownStruct
  dim : r.ownDims = true → r.dim_size 0 = r'.dim_size 0
  struct_id : r.ownStruct = true → r.struct_id = r'.struct_id

namespace Parser

open Prog

/-- Two states in the middle of the same text. -/
structure Alike (s t : Parser) : Prop where
  tokens : s.tokens = t.tokens
  tp1 : s.tp1 = t.tp1
  bp : s.bp = t.bp
  sp : s.sp = t.sp
  global_table : s.global_table = t.global_table
  symbols : ∀ i, i < s.sp → (s.symtab i).Alike (t.symtab i)

/-- The program comes to the same in both states, unless it reads what an earlier text left. -/
abbrev Steady {α : Type} (x : P α) : Prop := Twin Alike (fun s => s.leans = true) x

variable {α : Type} {s t : Parser}

theorem Alike.tokenAt (h : Alike s t) (i : Nat) : tokenAt s i = tokenAt t i := by
  unfold Parser.tokenAt
  rw [h.tokens]

theorem peek_steady : Steady peek := twin_gets fun s t h => by rw [h.tokenAt, h.tp1]

theorem match_steady (t : Int) : Steady (match_ t) := twin_gets fun s s' h => by
  unfold tokenType
  rw [h.tokenAt, h.tp1]

theorem forward_steady : Steady (update fun s => { s with tp1 := s.tp1 + 1 }) :=
  twin_update (fun _ h => h) fun _ _ h =>
    { h with tp1 := congrArg (· + 1) h.tp1 }

theorem steady : Rules fun α (x : P α) => Steady x := twin_rules

theorem tokenName_steady (i : Int) : Steady (tokenName i) := by
  refine twin_bind (twin_gets fun s t h => by rw [h.tokens]) fun n => ?_
  split
  · exact twin_gets fun s t h => by rw [h.tokenAt]
  · exact steady.undefined

theorem thisToken_steady : Steady thisToken := twin_gets fun s t h => by rw [h.tp1]

theorem lastToken_steady : Steady lastToken := twin_gets fun s t h => by rw [h.tp1]

theorem leaning_steady (f : Parser → α) : Steady (leaning f) :=
  ⟨fun _ _ => rfl, fun _ _ _ h => absurd rfl h⟩

/-- A change of what the runs do not agree on. -/
theorem update_steady {f : Parser → Parser} (hleans : ∀ s, s.leans = true → (f s).leans = true)
    (h : ∀ s, (f s).tokens = s.tokens ∧ (f s).tp1 = s.tp1 ∧ (f s).bp = s.bp ∧ (f s).sp = s.sp ∧
      (f s).global_table = s.global_table ∧ (f s).symtab = s.symtab) : Steady (update f) := by
  refine twin_update hleans fun s t hst => ?_
  obtain ⟨h1, h2, h3, h4, h5, h6⟩ := h s
  obtain ⟨k1, k2, k3, k4, k5, k6⟩ := h t
  refine ⟨?_, ?_, ?_, ?_, ?_, ?_⟩
  · rw [h1, k1, hst.tokens]
  · rw [h2, k2, hst.tp1]
  · rw [h3, k3, hst.bp]
  · rw [h4, k4, hst.sp]
  · rw [h5, k5, hst.global_table]
  · rw [h4, h6, k6]
    exact hst.symbols

theorem setSymbol_alike (h : Alike s t) (i : Nat) {f : Record → Record}
    (hf : ∀ r r', i < s.sp → r.Alike r' → (f r).Alike (f r')) :
    Alike (setSymbol s i f) (setSymbol t i f) := by
  refine ⟨h.tokens, h.tp1, h.bp, h.sp, h.global_table, fun j hj => ?_⟩
  have hsym := h.symbols j hj
  unfold setSymbol
  simp only
  by_cases hji : j = i
  · subst hji
    rw [if_pos rfl, if_pos rfl]
    exact hf _ _ hj hsym
  · rw [if_neg hji, if_neg hji]
    exact hsym

theorem add_to_symtab_steady (t : Token) (bp isg gt data_type lvl : Int) :
    Steady (add_to_symtab t bp isg gt data_type lvl) := by
  refine twin_bind (twin_gets fun s t h => h.sp) fun sp => ?_
  split
  · refine twin_update (fun _ h => h) fun s s' h => ?_
    refine ⟨h.tokens, h.tp1, h.bp, congrArg (· + 1) h.sp, h.global_table, fun j hj => ?_⟩
    unfold setSymbol
    simp only
    rw [← h.sp]
    by_cases hj' : j = s.sp
    · rw [if_pos hj', if_pos hj']
      exact ⟨rfl, rfl, rfl, rfl, rfl, rfl, rfl, rfl, nofun, nofun⟩
    · rw [if_neg hj', if_neg hj']
      exact h.symbols j (Nat.lt_of_le_of_ne (Nat.le_of_lt_succ hj) hj')
  · exact steady.undefined

theorem symbolBelow_alike (h : Alike s t) (name : Name) : ∀ n, n ≤ s.sp →
    symbolBelow s.symtab name n = symbolBelow t.symtab name n := by
  intro n
  induction n with
  | zero => exact fun _ => rfl
  | succ n ih =>
      intro hn
      unfold symbolBelow
      rw [(h.symbols n hn).name, ih (Nat.le_of_succ_le hn)]

theorem find_symbol_steady (name : Name) : Steady (find_symbol name) :=
  twin_gets fun s t h => by rw [symbolBelow_alike h name s.sp (Nat.le_refl _), h.sp]

theorem symbol_alike (h : Alike s t) {id : Int} (hid : 0 ≤ id ∧ id < s.sp) :
    (s.symtab id.toNat).Alike (t.symtab id.toNat) := h.symbols id.toNat (by omega)

theorem symbol_steady {f : Record → α} (id : Int) (hf : ∀ r r' : Record, r.Alike r' → f r = f r') :
    Steady (symbol f id) := by
  refine ⟨fun s hs => ?_, fun s t hst _ => ?_⟩
  · unfold symbol
    split <;> exact hs
  · unfold symbol
    rw [← hst.sp]
    by_cases hid : 0 ≤ id ∧ id < s.sp
    · rw [if_pos hid, if_pos hid]
      exact ⟨hf _ _ (symbol_alike hst hid), hst⟩
    · rw [if_neg hid, if_neg hid]
      trivial

theorem oldSymbol_steady {own : Record → Bool} {f : Record → α} (id : Int)
    (hown : ∀ r r' : Record, r.Alike r' → own r = own r')
    (hf : ∀ r r' : Record, r.Alike r' → own r = true → f r = f r') : Steady (oldSymbol own f id) := by
  refine ⟨fun s hs => ?_, fun s t hst hgood => ?_⟩
  · unfold oldSymbol
    split
    · show (if own _ then s else { s with leans := true }).leans = true
      split
      · exact hs
      · rfl
    · exact hs
  · unfold oldSymbol at hgood ⊢
    rw [← hst.sp]
    by_cases hid : 0 ≤ id ∧ id < s.sp
    · have hsym := symbol_alike hst hid
      rw [if_pos hid] at hgood
      rw [if_pos hid, if_pos hid, ← hown _ _ hsym]
      by_cases ho : own (s.symtab id.toNat) = true
      · rw [if_pos ho, if_pos ho]
        exact ⟨hf _ _ hsym ho, hst⟩
      · rw [if_neg ho] at hgood
        exact absurd rfl hgood
    · rw [if_neg hid, if_neg hid]
      trivial

theorem modifySymbol_steady (id : Int) {f : Record → Record}
    (hf : ∀ r r' : Record, r.Alike r' → (f r).Alike (f r')) : Steady (modifySymbol id f) := by
  unfold modifySymbol
  split
  · exact twin_update (fun _ h => h) fun s t h => setSymbol_alike h _ fun r r' _ => hf r r'
  · exact steady.undefined

theorem setDim_steady (id : Int) (dc : Nat) (v : Int) : Steady (setDim id dc v) := by
  unfold setDim
  split
  · refine modifySymbol_steady id fun r r' h => { h with ownDims := ?_, dim := fun hown => ?_ }
    · rw [h.ownDims]
    · show (if 0 = dc then v else r.dim_size 0) = if 0 = dc then v else r'.dim_size 0
      by_cases hdc : 0 = dc
      · rw [if_pos hdc, if_pos hdc]
      · rw [if_neg hdc, if_neg hdc]
        exact h.dim (by simpa [Ne.symm hdc] using hown)
  · exact steady.undefined

theorem modifyStruct_steady (f : Structentry → Structentry) : Steady (modifyStruct f) :=
  update_steady (fun _ h => h) fun _ => ⟨rfl, rfl, rfl, rfl, rfl, rfl⟩

theorem dims_steady (id : Int) : Steady (oldSymbol Record.ownDims (fun e => e.dim_size 0) id) :=
  oldSymbol_steady id (fun _ _ h => h.ownDims) fun _ _ h => h.dim

/-- The steps of expressions and struct definitions. -/
theorem reading : Reading fun α (x : P α) => Steady x where
  toRules := steady
  peek := peek_steady
  match_ := match_steady
  forward := forward_steady
  tokenName := tokenName_steady
  thisToken := thisToken_steady
  lastToken := lastToken_steady
  find_symbol := find_symbol_steady
  kind id := symbol_steady id fun r r' h => by
    unfold useKind
    rw [h.is_global, h.name, h.type, h.offset]
  offset id := symbol_steady id fun _ _ h => h.offset
  struct_id id := oldSymbol_steady id (fun _ _ h => h.ownStruct) fun _ _ h => h.struct_id
  leaning := leaning_steady
  modifyStruct := modifyStruct_steady
  grow := update_steady (fun _ h => h) fun _ => ⟨rfl, rfl, rfl, rfl, rfl, rfl⟩

theorem gt_count_steady : Steady gt_count := twin_gets fun s t h => by rw [h.global_table]

theorem append_node_steady (node : Node) : Steady (append_node node) :=
  append_node_rule steady gt_count_steady (fun _ => twin_update (fun _ h => h) fun _ _ h =>
    { h with global_table := congrArg (· ++ [_]) h.global_table }) node

variable {r : Calls}

theorem bp_steady : Steady (gets fun s => s.bp) := twin_gets fun _ _ h => h.bp

theorem set_bp_steady (f : Int → Int) : Steady (update fun s => { s with bp := f s.bp }) :=
  twin_update (fun _ h => h) fun _ _ h => { h with bp := congrArg f h.bp }

theorem complete_alike {e e' : Record} (h : e.Alike e') (dc : Nat) (te struct_id : Int) :
    (e.complete dc te struct_id).Alike (e'.complete dc te struct_id) :=
  ⟨h.name, h.type, h.offset, h.gt_index, h.is_global, h.ptrlvl, h.ownDims, rfl, h.dim, fun _ => rfl⟩

/-- The steps of declarations and functions. -/
theorem declaring : Declaring fun α (x : P α) => Steady x where
  toReading := reading
  bp := bp_steady
  gt_count := gt_count_steady
  setBp := set_bp_steady
  setGbr _ := update_steady (fun _ h => h) fun _ => ⟨rfl, rfl, rfl, rfl, rfl, rfl⟩
  add_to_symtab := add_to_symtab_steady
  dims := dims_steady
  setDim := setDim_steady
  variable_ id dc te struct_id _ := modifySymbol_steady id fun _ _ h =>
    { complete_alike h dc te struct_id with offset := rfl }
  global id dc te struct_id := modifySymbol_steady id fun _ _ h => complete_alike h dc te struct_id
  parameter id _ := modifySymbol_steady id fun _ _ h => { h with ownStruct := rfl, struct_id := fun _ => rfl }

theorem ahead_steady (k : Nat) : Steady (gets fun s => tokenType s (s.tp1 + k)) :=
  twin_gets fun s t h => by
    unfold tokenType
    rw [h.tokenAt, h.tp1]

theorem calls_steady : ∀ n, CallsHave (fun _ x => Steady x) (calls n) := calls_have declaring.toEntering

theorem topLevel_steady (hr : CallsHave (fun _ x => Steady x) r) : Steady (topLevel r) := by
  refine twin_bind reading.peek fun tok => twin_bind (ahead_steady 2) fun ahead => ?_
  split
  · exact steady.pure _
  split
  · exact twin_bind (parse_struct_def_rule reading) fun _ => steady.pure _
  split
  · exact twin_bind (parse_typedef_rule reading) fun _ => steady.pure _
  refine twin_bind (is_type_rule reading.toLooking _) fun b => ?_
  split
  · refine twin_bind ?_ fun n => twin_bind (append_node_steady n) fun _ => steady.pure _
    split
    · exact parse_function_rule declaring.toEntering hr
    · exact parse_global_declaration_rule declaring.toEntering hr
  · exact twin_bind forward_steady fun _ => steady.pure _

theorem topLevels_steady (n : Nat) : Steady (topLevels (calls n)) := by
  refine steady.cycle (fun _ => ?_) _ _
  refine twin_bind (topLevel_steady (calls_steady n)) fun b => ?_
  split
  · exact steady.pure _
  · exact steady.pure _

end Parser

end Eke
