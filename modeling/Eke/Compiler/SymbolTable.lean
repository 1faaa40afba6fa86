/-
The symbol table while a text is parsed.

Expressions and struct definitions leave it alone.  Statements only add to it: an entry that
was there stays as it is, since a declaration changes no entry but the one it has added.
-/
import Eke.Compiler.ParserRules

namespace Eke

namespace Parser

open Prog

variable {α β γ : Type} {s t u s' : Parser} {x : P α} {k : α → P β}

/-! ### What stays as it is -/

/-- The symbols, the global table and the global addresses are as they were. -/
structure Still (s t : Parser) : Prop where
  sp : t.sp = s.sp
  symtab : t.symtab = s.symtab
  gbr : t.gbr = s.gbr
  global_table : t.global_table = s.global_table

theorem Still.refl (s : Parser) : Still s s := ⟨rfl, rfl, rfl, rfl⟩

theorem Still.trans (s t u : Parser) (h : Still s t) (h' : Still t u) : Still s u :=
  ⟨h'.sp.trans h.sp, h'.symtab.trans h.symtab, h'.gbr.trans h.gbr,
    h'.global_table.trans h.global_table⟩

/-- The symbols that were there are as they were. -/
structure Grows (s t : Parser) : Prop where
  sp : s.sp ≤ t.sp
  symbols : ∀ i, i < s.sp → t.symtab i = s.symtab i

theorem Grows.refl (s : Parser) : Grows s s := ⟨Nat.le_refl _, fun _ _ => rfl⟩

theorem Grows.trans (s t u : Parser) (h : Grows s t) (h' : Grows t u) : Grows s u :=
  ⟨Nat.le_trans h.sp h'.sp, fun i hi =>
    (h'.symbols i (Nat.lt_of_lt_of_le hi h.sp)).trans (h.symbols i hi)⟩

theorem Still.grows (h : Still s t) : Grows s t :=
  ⟨Nat.le_of_eq h.sp.symm, fun i _ => by rw [h.symtab]⟩

/-- The symbols are as they were, but for one, and that one is where it was. -/
structure At (i : Nat) (s t : Parser) : Prop where
  sp : t.sp = s.sp
  others : ∀ j, j ≠ i → t.symtab j = s.symtab j
  offset : (t.symtab i).offset = (s.symtab i).offset

theorem At.refl {i : Nat} (s : Parser) : At i s s := ⟨rfl, fun _ _ => rfl, rfl⟩

theorem At.trans {i : Nat} (s t u : Parser) (h : At i s t) (h' : At i t u) : At i s u :=
  ⟨h'.sp.trans h.sp, fun j hj => (h'.others j hj).trans (h.others j hj), h'.offset.trans h.offset⟩

theorem Still.at {i : Nat} (h : Still s t) : At i s t :=
  ⟨h.sp, fun j _ => by rw [h.symtab], by rw [h.symtab]⟩

/-! ### Programs that leave the symbols alone -/

theorem leaning_still (f : Parser → α) : Keeps Still (leaning f) := by
  intro s a t h
  cases h
  exact ⟨rfl, rfl, rfl, rfl⟩

theorem symbol_still (f : Record → α) (id : Int) : Keeps Still (symbol f id) := by
  intro s a t h
  unfold symbol at h
  split at h
  · cases h
    exact Still.refl _
  · cases h

theorem oldSymbol_still (own : Record → Bool) (f : Record → α) (id : Int) :
    Keeps Still (oldSymbol own f id) := by
  intro s a t h
  unfold oldSymbol at h
  split at h
  · obtain ⟨-, rfl⟩ := Out.ok.inj h
    split
    · exact Still.refl _
    · exact ⟨rfl, rfl, rfl, rfl⟩
  · cases h

/-- The steps of expressions and struct definitions. -/
theorem still : Reading fun α (x : P α) => Keeps Still x where
  toRules := keeps_rules Still.refl Still.trans
  peek := keeps_gets Still.refl _
  match_ _ := keeps_gets Still.refl _
  forward := keeps_update fun _ => ⟨rfl, rfl, rfl, rfl⟩
  tokenName i := by
    refine (keeps_rules Still.refl Still.trans).bind (keeps_gets Still.refl _) fun n => ?_
    split
    · exact keeps_gets Still.refl _
    · exact (keeps_rules Still.refl Still.trans).undefined
  thisToken := keeps_gets Still.refl _
  lastToken := keeps_gets Still.refl _
  find_symbol _ := keeps_gets Still.refl _
  kind := symbol_still _
  offset := symbol_still _
  struct_id := oldSymbol_still _ _
  leaning := leaning_still
  modifyStruct _ := keeps_update fun _ => ⟨rfl, rfl, rfl, rfl⟩
  grow := keeps_update fun _ => ⟨rfl, rfl, rfl, rfl⟩

/-- The same steps, under any relation that allows what they do. -/
theorem reading_keeps {R : Parser → Parser → Prop} (hrefl : ∀ s, R s s)
    (htrans : ∀ s t u, R s t → R t u → R s u) (hstill : ∀ s t, Still s t → R s t) :
    Reading fun α (x : P α) => Keeps R x :=
  still.mono (keeps_rules hrefl htrans) fun h => h.mono hstill

theorem growing : Reading fun α (x : P α) => Keeps Grows x :=
  reading_keeps Grows.refl Grows.trans fun _ _ => Still.grows

theorem reading_at (i : Nat) : Reading fun α (x : P α) => Keeps (At i) x :=
  reading_keeps At.refl At.trans fun _ _ => Still.at

/-- An expression needs the statements for nothing. -/
theorem expression_still : ∀ n p, Keeps Still ((calls n).parse_expression p) := by
  intro n
  induction n with
  | zero => exact fun _ => still.more
  | succ n ih =>
      intro p
      exact parse_expression_rule still.toLooking (r := ⟨(calls n).fuel, (calls n).parse_expression, more⟩)
        ⟨ih, still.more⟩ p

/-! ### A new symbol -/

/-- There is one more symbol; its size is what was there. -/
structure Added (name : Name) (offset : Int) (s t : Parser) : Prop where
  sp : t.sp = s.sp + 1
  others : ∀ j, j ≠ s.sp → t.symtab j = s.symtab j
  name : (t.symtab s.sp).name = name
  size : (t.symtab s.sp).size = (s.symtab s.sp).size
  offset : (t.symtab s.sp).offset = offset

theorem add_to_symtab_added {tok : Token} {bp isg gt data_type lvl : Int} :
    Keeps (Added tok.name bp) (add_to_symtab tok bp isg gt data_type lvl) := by
  intro s a t h
  obtain ⟨sp, v, hsp, h⟩ := bind_ok_iff.mp h
  cases hsp
  split at h
  · obtain ⟨-, rfl⟩ := Out.ok.inj h
    refine ⟨rfl, fun j hj => if_neg hj, ?_, ?_, ?_⟩
    · simp only [setSymbol, if_true]
    · simp only [setSymbol, if_true]
    · simp only [setSymbol, if_true]
  · cases h

/-- The symbol that was added last is found by its name. -/
theorem added {tok : Token} {bp isg gt data_type lvl : Int} {k : Int → P β} {b : β}
    (h : (add_to_symtab tok bp isg gt data_type lvl >>= fun _ => find_symbol tok.name >>= k) s = .ok b s') :
    ∃ u, Added tok.name bp s u ∧ k s.sp u = .ok b s' := by
  obtain ⟨-, u, hu, h⟩ := add_to_symtab_added.split h
  obtain ⟨id, v, hid, h⟩ := bind_ok_iff.mp h
  have hfound : id = s.sp := by
    rw [← (Out.ok.inj hid).1]
    show symbolBelow u.symtab tok.name u.sp = s.sp
    rw [hu.sp, symbolBelow, if_pos hu.name]
  rw [hfound, ← (Out.ok.inj hid).2] at h
  exact ⟨u, hu, h⟩

theorem Added.grows {name : Name} {offset : Int} (h : Added name offset s t) : Grows s t :=
  ⟨by rw [h.sp]; exact Nat.le_succ _, fun i hi => h.others i (Nat.ne_of_lt hi)⟩

/-- What changes the symbol that was added last leaves the others alone. -/
theorem At.grows {i : Nat} (hi : s.sp ≤ i) (h : Grows s t) (h' : At i t u) : Grows s u :=
  ⟨by rw [h'.sp]; exact h.sp, fun j hj =>
    (h'.others j (Nat.ne_of_lt (Nat.lt_of_lt_of_le hj hi))).trans (h.symbols j hj)⟩

theorem modifySymbol_at {i : Nat} {f : Record → Record} (hf : ∀ e : Record, (f e).offset = e.offset) :
    Keeps (At i) (modifySymbol i f) := by
  have h : Keeps (At i) (update fun s => setSymbol s i f) := by
    refine keeps_update fun s => ⟨rfl, fun j hj => if_neg hj, ?_⟩
    simp only [setSymbol, if_true]
    exact hf _
  unfold modifySymbol
  split
  · exact h
  · exact (reading_at i).undefined

theorem setDim_at (i dc : Nat) (v : Int) : Keeps (At i) (setDim i dc v) := by
  unfold setDim
  split
  · exact modifySymbol_at fun _ => rfl
  · exact (reading_at i).undefined

/-- The parser calls itself so that expressions leave the symbols alone and statements add to
them. -/
structure Quiet (r : Calls) : Prop where
  expression : ∀ p, Keeps Still (r.parse_expression p)
  statement : Keeps Grows r.parse_statement

variable {r : Calls}

theorem initializer_at (hr : Quiet r) (i : Nat) (te : Int) : Keeps (At i) (initializer r i te) :=
  initializer_rule (reading_at i).toLooking (r := ⟨r.fuel, r.parse_expression, more⟩)
    ⟨fun p => (hr.expression p).mono fun _ _ => Still.at, (reading_at i).more⟩ te (setDim_at i)
    ((oldSymbol_still _ _ _).mono fun _ _ => Still.at)

theorem declarator_grows (hr : Quiet r) (base_type struct_id base_size curroffset : Int) :
    Keeps Grows (declarator r base_type struct_id base_size curroffset) := by
  intro s b s' h
  obtain ⟨_, s₁, h₁, h⟩ := (stars_rule still.toLooking).split h
  obtain ⟨d_tok, s₂, h₂, h⟩ := (consume_rule still.toLooking _).split h
  obtain ⟨tid, _, ht, h⟩ := bind_ok_iff.mp h
  cases ht
  obtain ⟨bp, _, hb, h⟩ := bind_ok_iff.mp h
  cases hb
  obtain ⟨n, _, hn, h⟩ := bind_ok_iff.mp h
  cases hn
  obtain ⟨s₃, h₃, h⟩ := added h
  obtain ⟨bounds, s₄, h₄, h⟩ := (localBounds_rule (reading_at s₂.sp).toLooking (setDim_at s₂.sp)).split h
  obtain ⟨value, s₅, h₅, h⟩ := (initializer_at hr s₂.sp _).split h
  obtain ⟨_, s₆, h₆, h⟩ := bind_ok_iff.mp h
  cases h
  obtain ⟨-, rfl⟩ := Out.ok.inj (show Out.ok () _ = Out.ok () s' by simpa [modifySymbol, update] using h₆)
  have hpre : Grows s s₂ := h₁.grows.trans _ _ _ h₂.grows
  have hgrows : Grows s s₅ :=
    At.grows hpre.sp (hpre.trans _ _ _ h₃.grows) (At.trans _ _ _ h₄ h₅)
  exact ⟨hgrows.sp, fun i hi =>
    (if_neg (Nat.ne_of_lt (Nat.lt_of_lt_of_le hi hpre.sp))).trans (hgrows.symbols i hi)⟩

theorem set_bp_grows (f : Parser → Int) : Keeps Grows (update fun s => { s with bp := f s }) :=
  keeps_update fun _ => ⟨Nat.le_refl _, fun _ _ => rfl⟩

theorem parse_declaration_grows (hr : Quiet r) : Keeps Grows (parse_declaration r) := by
  refine growing.bind growing.peek fun t => growing.bind (is_type_rule growing.toLooking _) fun b => ?_
  split
  · refine growing.bind (advance_rule growing.toLooking) fun rt => growing.bind (typeStruct_rule growing.toLooking rt)
      fun ty => growing.bind (growing.cycle (fun d => ?_) _ _) fun d =>
        growing.bind (set_bp_grows fun s => int32 (s.bp + d.2)) fun _ =>
          growing.bind (consume_rule growing.toLooking _) fun _ => growing.pure _
    refine growing.bind (declarator_grows hr _ _ _ _) fun n =>
      growing.bind (more_declarators_rule growing.toLooking) fun m => ?_
    split
    · exact growing.pure _
    · exact growing.pure _
  · exact growing.exit 1

theorem calls_quiet : ∀ n, Quiet (calls n) := by
  intro n
  induction n with
  | zero => exact ⟨expression_still 0, growing.more⟩
  | succ n ih =>
      refine ⟨expression_still (n + 1), ?_⟩
      exact parse_statement_rule growing.toLooking
        ⟨fun p => (ih.expression p).mono fun _ _ => Still.grows, ih.statement⟩
        (parse_declaration_grows ih)

/-! ### The first symbol -/

/-- New global variables: the first one stands where the global addresses went on. -/
structure Declares (s t : Parser) : Prop extends Grows s t where
  more : s.sp < t.sp
  first : s.sp = 0 → (t.symtab 0).offset = s.gbr

theorem Declares.trans (s t u : Parser) (h : Declares s t) (h' : Declares t u) : Declares s u where
  toGrows := h.toGrows.trans _ _ _ h'.toGrows
  more := Nat.lt_trans h.more h'.more
  first hsp := by
    rw [h'.symbols 0 (Nat.lt_of_le_of_lt (Nat.zero_le _) h.more)]
    exact h.first hsp

/-- With more symbols, but no other first one, before and after. -/
theorem Declares.between {s₁ t₁ : Parser} (hs : Still s s₁) (h : Declares s₁ t₁) (ht : Grows t₁ t) :
    Declares s t where
  toGrows := (hs.grows.trans _ _ _ h.toGrows).trans _ _ _ ht
  more := by
    have := h.more
    have := ht.sp
    rw [← hs.sp]
    omega
  first hsp := by
    rw [ht.symbols 0 (Nat.lt_of_le_of_lt (Nat.zero_le _) h.more), ← hs.gbr]
    exact h.first (hs.sp.trans hsp)

theorem globalDeclarator_declares (hr : Quiet r) (base_type dt struct_id base_size : Int) :
    Keeps Declares (globalDeclarator r base_type dt struct_id base_size) := by
  intro s b s' h
  obtain ⟨_, s₁, h₁, h⟩ := (stars_rule still.toLooking).split h
  obtain ⟨d_tok, s₂, h₂, h⟩ := (consume_rule still.toLooking _).split h
  obtain ⟨tid, _, ht, h⟩ := bind_ok_iff.mp h
  cases ht
  obtain ⟨gbr, s₃, hg, h⟩ := bind_ok_iff.mp h
  have h₃ := leaning_still _ _ _ _ hg
  obtain ⟨n, _, hn, h⟩ := bind_ok_iff.mp h
  cases hn
  obtain ⟨s₄, h₄, h⟩ := added h
  obtain ⟨bounds, s₅, h₅, h⟩ := (globalBounds_rule (reading_at s₃.sp).toLooking (setDim_at s₃.sp)).split h
  obtain ⟨value, s₆, h₆, h⟩ := (initializer_at hr s₃.sp _).split h
  have hset : Keeps (At s₃.sp) (modifySymbol s₃.sp fun e => e.complete bounds.1 value.2 struct_id) :=
    modifySymbol_at fun _ => rfl
  obtain ⟨_, s₇, h₇, h⟩ := hset.split h
  obtain ⟨_, s₈, h₈, h⟩ := bind_ok_iff.mp h
  obtain ⟨-, rfl⟩ := Out.ok.inj h₈
  cases h
  have hpre : Still s s₃ := (h₁.trans _ _ _ h₂).trans _ _ _ h₃
  have hat : At s₃.sp s₄ s₇ := (At.trans _ _ _ h₅ h₆).trans _ _ _ h₇
  have hgbr : gbr = s₃.gbr := by
    cases hg
    rfl
  have hnew : Declares s₃ s₇ := by
    refine ⟨hat.grows (Nat.le_refl _) h₄.grows, ?_, fun hsp => ?_⟩
    · rw [hat.sp, h₄.sp]
      exact Nat.lt_succ_self _
    · have hoff := hat.offset.trans h₄.offset
      rwa [hsp, hgbr] at hoff
  exact Declares.between hpre hnew ⟨Nat.le_refl _, fun _ _ => rfl⟩

theorem parse_global_declaration_declares (hr : Quiet r) :
    Keeps Declares (parse_global_declaration r) := by
  intro s b s' h
  obtain ⟨t, s₁, h₁, h⟩ := still.peek.split h
  obtain ⟨b, s₂, h₂, h⟩ := (is_type_rule still.toLooking _).split h
  split at h
  case isFalse => cases h
  obtain ⟨t, s₃, h₃, h⟩ := (advance_rule still.toLooking).split h
  obtain ⟨ty, s₄, h₄, h⟩ := (typeStruct_rule still.toLooking t).split h
  have hbody : ∀ d : List Node × Int, Keeps Declares (do
      let n ← globalDeclarator r t.type ty.1.type ty.2.1 d.2
      if ← more_declarators then pure (.inl (d.1 ++ [n.1], n.2))
      else pure (.inr (d.1 ++ [n.1])) : P ((List Node × Int) ⊕ List Node)) := by
    intro d u c u' hu
    obtain ⟨n, u₁, hu₁, hu⟩ := (globalDeclarator_declares hr _ _ _ _).split hu
    obtain ⟨m, u₂, hu₂, hu⟩ := (more_declarators_rule still.toLooking).split hu
    have hend : Still u₂ u' := by
      split at hu
      · exact still.pure _ _ _ _ hu
      · exact still.pure _ _ _ _ hu
    exact Declares.between (Still.refl _) hu₁ (hu₂.trans _ _ _ hend).grows
  obtain ⟨ns, s₅, h₅, h⟩ := (keeps_cycle Declares.trans hbody _ _).split h
  obtain ⟨_, s₆, h₆, h⟩ := (consume_rule still.toLooking _).split h
  cases h
  have hpre : Still s s₄ := ((h₁.trans _ _ _ h₂).trans _ _ _ h₃).trans _ _ _ h₄
  exact Declares.between hpre h₅ h₆.grows

theorem param_grows (gt_index : Int) : Keeps Grows (param r gt_index) := by
  intro s b s' h
  obtain ⟨t, s₁, h₁, h⟩ := (advance_rule still.toLooking).split h
  obtain ⟨ty, s₂, h₂, h⟩ := (paramStruct_rule still.toLooking t).split h
  obtain ⟨count, s₃, h₃, h⟩ := (stars_rule still.toLooking).split h
  obtain ⟨a_tok, s₄, h₄, h⟩ := (consume_rule still.toLooking _).split h
  obtain ⟨bp, _, hb, h⟩ := bind_ok_iff.mp h
  cases hb
  obtain ⟨s₅, h₅, h⟩ := added h
  have hset : Keeps (At s₄.sp)
      (modifySymbol s₄.sp fun e => { e with struct_id := ty.2, ownStruct := true }) :=
    modifySymbol_at fun _ => rfl
  obtain ⟨_, s₆, h₆, h⟩ := hset.split h
  obtain ⟨_, s₇, h₇, h⟩ := bind_ok_iff.mp h
  obtain ⟨-, rfl⟩ := Out.ok.inj h₇
  cases h
  have hpre : Still s s₄ := ((h₁.trans _ _ _ h₂).trans _ _ _ h₃).trans _ _ _ h₄
  have hgrows : Grows s s₆ :=
    h₆.grows (Nat.le_of_eq hpre.sp.symm) (hpre.grows.trans _ _ _ h₅.grows)
  exact ⟨hgrows.sp, hgrows.symbols⟩

/-- A function: the first symbol keeps its size, and its offset is its place in the global
table. -/
structure Defines (s t : Parser) : Prop extends Grows s t where
  more : s.sp < t.sp
  first : s.sp = 0 →
    (t.symtab 0).size = (s.symtab 0).size ∧ (t.symtab 0).offset = s.global_table.length

theorem parse_function_defines (hr : Quiet r) : Keeps Defines (parse_function r) := by
  intro s b s' h
  obtain ⟨t, s₁, h₁, h⟩ := still.peek.split h
  obtain ⟨b, s₂, h₂, h⟩ := (is_type_rule still.toLooking _).split h
  split at h
  case isFalse => cases h
  obtain ⟨rt, s₃, h₃, h⟩ := (advance_rule still.toLooking).split h
  obtain ⟨f_tok, s₄, h₄, h⟩ := (consume_rule still.toLooking _).split h
  obtain ⟨gt, _, hg, h⟩ := bind_ok_iff.mp h
  obtain ⟨rfl, rfl⟩ := Out.ok.inj hg
  obtain ⟨_, s₅, h₅, h⟩ := add_to_symtab_added.split h
  have hpre : Still s s₄ := ((h₁.trans _ _ _ h₂).trans _ _ _ h₃).trans _ _ _ h₄
  have hblock : Keeps Grows (parse_block r) := parse_block_rule growing.toLooking
    ⟨fun p => (hr.expression p).mono fun _ _ => Still.grows, hr.statement⟩
  obtain ⟨_, s₆, h₆, h⟩ := (set_bp_grows fun _ => -12).split h
  obtain ⟨_, s₇, h₇, h⟩ := (consume_rule growing.toLooking _).split h
  obtain ⟨d, s₈, h₈, h⟩ := (params_rule growing.toLooking (param_grows _)).split h
  obtain ⟨_, s₉, h₉, h⟩ := (consume_rule growing.toLooking _).split h
  have hend : Grows s₉ s' := by
    obtain ⟨m, t₁, k₁, h⟩ := (growing.match_ _).split h
    split at h
    · obtain ⟨_, t₂, k₂, h⟩ := (consume_rule growing.toLooking _).split h
      cases h
      exact k₁.trans _ _ _ k₂
    · obtain ⟨_, t₂, k₂, h⟩ := (set_bp_grows fun _ => 0).split h
      obtain ⟨body, t₃, k₃, h⟩ := hblock.split h
      cases h
      exact (k₁.trans _ _ _ k₂).trans _ _ _ k₃
  have hrest : Grows s₅ s' :=
    (((h₆.trans _ _ _ h₇).trans _ _ _ h₈).trans _ _ _ h₉).trans _ _ _ hend
  have hpos : 0 < s₅.sp := by
    rw [h₅.sp]
    exact Nat.succ_pos _
  refine ⟨(hpre.grows.trans _ _ _ h₅.grows).trans _ _ _ hrest, ?_, fun hsp => ?_⟩
  · have := hrest.sp
    have := h₅.sp
    have := hpre.sp
    omega
  · have hsp' : s₄.sp = 0 := hpre.sp.trans hsp
    have hsize := h₅.size
    have hoff := h₅.offset
    rw [hsp'] at hsize hoff
    rw [hrest.symbols 0 hpos, hsize, hoff, hpre.symtab]
    exact ⟨rfl, congrArg (fun g : List Globalentry => (g.length : Int)) hpre.global_table⟩

/-! ### The whole text -/

/-- What a text that starts without symbols makes of the first one. -/
structure Opens (s t : Parser) : Prop extends Grows s t where
  empty : t.sp = 0 → t.gbr = s.gbr ∧ t.symtab = s.symtab ∧ t.global_table = s.global_table
  first : s.sp = 0 → s.global_table = [] → 0 < t.sp →
    ((t.symtab 0).size = (s.symtab 0).size ∧ (t.symtab 0).offset = 0) ∨ (t.symtab 0).offset = s.gbr

theorem Still.opens (h : Still s t) : Opens s t where
  toGrows := h.grows
  empty _ := ⟨h.gbr, h.symtab, h.global_table⟩
  first hs _ ht := absurd (h.sp.trans hs) (Nat.ne_of_gt ht)

theorem Opens.trans (s t u : Parser) (h : Opens s t) (h' : Opens t u) : Opens s u where
  toGrows := h.toGrows.trans _ _ _ h'.toGrows
  empty hu := by
    have ht : t.sp = 0 := Nat.eq_zero_of_le_zero (hu ▸ h'.sp)
    obtain ⟨k₁, k₂, k₃⟩ := h.empty ht
    obtain ⟨l₁, l₂, l₃⟩ := h'.empty hu
    exact ⟨l₁.trans k₁, l₂.trans k₂, l₃.trans k₃⟩
  first hs hg hu := by
    by_cases ht : t.sp = 0
    · obtain ⟨k₁, k₂, k₃⟩ := h.empty ht
      rw [← k₁, ← k₂]
      exact h'.first ht (k₃.trans hg) hu
    · have hpos := Nat.pos_of_ne_zero ht
      rw [h'.symbols 0 hpos]
      exact h.first hs hg hpos

theorem Declares.opens (h : Declares s t) : Opens s t where
  toGrows := h.toGrows
  empty ht := absurd h.more (by omega)
  first hs _ _ := Or.inr (h.first hs)

theorem Defines.opens (h : Defines s t) : Opens s t where
  toGrows := h.toGrows
  empty ht := absurd h.more (by omega)
  first hs hg _ := by
    obtain ⟨hsize, hoff⟩ := h.first hs
    rw [hg] at hoff
    exact Or.inl ⟨hsize, hoff⟩

theorem opening : Reading fun α (x : P α) => Keeps Opens x :=
  reading_keeps (fun s => (Still.refl s).opens) Opens.trans fun _ _ => Still.opens

/-- A top-level construct with its entry in the global table. -/
theorem Opens.named (h : Opens s t) (ht : 0 < t.sp) (hsp : u.sp = t.sp) (hsym : u.symtab = t.symtab) :
    Opens s u where
  sp := by rw [hsp]; exact h.sp
  symbols i hi := by rw [hsym]; exact h.symbols i hi
  empty hu := absurd (hsp.symm.trans hu) (Nat.ne_of_gt ht)
  first hs hg _ := by rw [hsym]; exact h.first hs hg ht

theorem append_node_symbols (node : Node) :
    Keeps (fun s t => t.sp = s.sp ∧ t.symtab = s.symtab) (append_node node) :=
  append_node_rule (keeps_rules (fun _ => ⟨rfl, rfl⟩) fun _ _ _ h h' => ⟨h'.1.trans h.1, h'.2.trans h.2⟩)
    (keeps_gets (fun _ => ⟨rfl, rfl⟩) _) (fun _ => keeps_update fun _ => ⟨rfl, rfl⟩) node

theorem construct_opens (hr : Quiet r) (isFunction : Prop) [Decidable isFunction] :
    Keeps (fun s t => Opens s t ∧ 0 < t.sp)
      (if isFunction then parse_function r else parse_global_declaration r) := by
  intro s n t h
  split at h
  · have hdef := parse_function_defines hr s n t h
    exact ⟨hdef.opens, Nat.lt_of_le_of_lt (Nat.zero_le _) hdef.more⟩
  · have hdecl := parse_global_declaration_declares hr s n t h
    exact ⟨hdecl.opens, Nat.lt_of_le_of_lt (Nat.zero_le _) hdecl.more⟩

theorem topLevel_opens (hr : Quiet r) : Keeps Opens (topLevel r) := by
  refine opening.bind opening.peek fun tok => opening.bind (keeps_gets (fun s => (Still.refl s).opens) _)
    fun ahead => ?_
  split
  · exact opening.pure _
  split
  · exact opening.bind (parse_struct_def_rule opening) fun _ => opening.pure _
  split
  · exact opening.bind (parse_typedef_rule opening) fun _ => opening.pure _
  refine opening.bind (is_type_rule opening.toLooking _) fun b => ?_
  split
  · intro s b s' h
    obtain ⟨n, t, ⟨hopens, hpos⟩, h⟩ := (construct_opens hr _).split h
    obtain ⟨_, u, ⟨hsp, hsym⟩, h⟩ := (append_node_symbols n).split h
    cases h
    exact hopens.named hpos hsp hsym
  · exact opening.bind opening.forward fun _ => opening.pure _

theorem topLevels_opens (hr : Quiet r) : Keeps Opens (topLevels r) := by
  refine opening.cycle (fun _ => ?_) _ _
  refine opening.bind (topLevel_opens hr) fun b => ?_
  split
  · exact opening.pure _
  · exact opening.pure _

end Parser

end Eke
