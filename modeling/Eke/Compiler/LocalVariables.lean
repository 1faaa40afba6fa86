/-
The places of local variables.

A declaration list sets bytes aside for each of its variables, and the next one is placed behind them.
How many they are follows the size of the list's type until a pointer stands in the list, and is four
bytes an element from there on, for the pointers and for everything behind them: a struct behind a
pointer has the room of a pointer.  The main result says which lists a function may declare so that
its variables lie apart.
-/
import Eke.Compiler.ParameterList
import Eke.Compiler.Convention
import Eke.Lib.Slots

namespace Eke

/-! ### Variables and their addresses -/

/-- The size of the type a declaration list starts with. -/
def typeSize (structs : Nat → Structentry) (e : Record) : Int :=
  if e.struct_id = -1 then 4 else (structs e.struct_id.toNat).size

/-- The size of an element of a variable, by its own type. -/
def elementSize (structs : Nat → Structentry) (e : Record) : Int :=
  if 0 < e.ptrlvl then 4 else typeSize structs e

/-- The variable stands at an address, by its own type. -/
def Record.StandsAt (structs : Nat → Structentry) (e : Record) (a : Int) : Prop :=
  e.offset ≤ a ∧ a < e.offset + e.size * elementSize structs e

/-- The variables have elements, and lie apart in the bytes of the function. -/
structure LieApart (structs : Nat → Structentry) (es : List Record) (localvarbyte : Int) : Prop where
  elements : ∀ e ∈ es, 1 ≤ e.size
  disjoint : es.Pairwise fun d e => ∀ a, d.StandsAt structs a → ¬ e.StandsAt structs a
  inside : ∀ e ∈ es, ∀ a, e.StandsAt structs a → 0 ≤ a ∧ a < localvarbyte

/-- Declaration lists in which every variable has elements, no struct of more than four bytes stands
behind a pointer, and everything together is less than 2 ^ 31 bytes. -/
structure Placeable (structs : Nat → Structentry) (D : List (List Record)) : Prop where
  elements : ∀ e ∈ D.flatten, 1 ≤ e.size
  sizes : ∀ e ∈ D.flatten, 0 ≤ elementSize structs e
  pointers : ∀ es ∈ D, es.Pairwise fun p e => 0 < p.ptrlvl → elementSize structs e ≤ 4
  room : (D.flatten.map fun e => e.size * max 4 (elementSize structs e)).sum < 2 ^ 31

/-! ### What is set aside -/

variable {structs : Nat → Structentry} {es : List Record} {D : List (List Record)} {base own y : Int}

/-- The variables of a list, with the bytes set aside for an element of each; `base` are set aside in
front of them. -/
def asides : Int → List Record → List (Record × Int)
  | _, [] => []
  | base, e :: es =>
      let base := if 0 < e.ptrlvl then 4 else base
      (e, base) :: asides base es

def listAsides (structs : Nat → Structentry) : List Record → List (Record × Int)
  | [] => []
  | e :: es => asides (typeSize structs e) (e :: es)

def asideSlot (structs : Nat → Structentry) (p : Record × Int) : Slot :=
  ⟨p.1.offset, p.1.size * elementSize structs p.1, p.1.size * p.2⟩

/-- The variables of a list share its type. -/
def OneType : List Record → Prop
  | [] => True
  | e :: es => ∀ d ∈ es, d.struct_id = e.struct_id

theorem asides_fst : ∀ (es : List Record) (base : Int), (asides base es).map Prod.fst = es := by
  intro es
  induction es with
  | nil => exact fun _ => rfl
  | cons e es ih => exact fun base => congrArg (e :: ·) (ih _)

theorem flat_fst (structs : Nat → Structentry) : ∀ D : List (List Record),
    (D.flatMap (listAsides structs)).map Prod.fst = D.flatten := by
  intro D
  induction D with
  | nil => rfl
  | cons es D ih =>
      have hes : (listAsides structs es).map Prod.fst = es := by
        cases es with
        | nil => rfl
        | cons e es => exact asides_fst _ _
      rw [List.flatMap_cons, List.flatten_cons, List.map_append, hes, ih]

theorem fst_mem {p : Record × Int} (hp : p ∈ D.flatMap (listAsides structs)) : p.1 ∈ D.flatten := by
  rw [← flat_fst structs D]
  exact List.mem_map_of_mem hp

/-- An element has the bytes of its type or four. -/
theorem asides_base : ∀ {es : List Record} {base : Int}, (∀ e ∈ es, typeSize structs e = own) →
    (base = own ∨ base = 4) → ∀ p ∈ asides base es, p.2 = elementSize structs p.1 ∨ p.2 = 4 := by
  intro es
  induction es with
  | nil => exact fun _ _ p hp => absurd hp List.not_mem_nil
  | cons e es ih =>
      intro base hown hbase p hp
      have hrest : ∀ d ∈ es, typeSize structs d = own := fun d hd => hown d (List.mem_cons_of_mem _ hd)
      rcases List.mem_cons.mp hp with rfl | hp
      · unfold elementSize
        rw [hown _ (List.mem_cons_self ..)]
        by_cases hptr : 0 < e.ptrlvl
        · exact .inr (if_pos hptr)
        · simp only [if_neg hptr]
          exact hbase
      · refine ih hrest ?_ p hp
        by_cases hptr : 0 < e.ptrlvl
        · exact .inr (if_pos hptr)
        · rw [if_neg hptr]
          exact hbase

/-- With no struct of more than four bytes behind a pointer, an element has the bytes of its type. -/
theorem asides_room : ∀ {es : List Record} {base : Int}, (∀ e ∈ es, typeSize structs e = own) →
    (base = own ∨ base = 4 ∧ ∀ e ∈ es, elementSize structs e ≤ 4) →
    (es.Pairwise fun p e => 0 < p.ptrlvl → elementSize structs e ≤ 4) →
    ∀ p ∈ asides base es, elementSize structs p.1 ≤ p.2 := by
  intro es
  induction es with
  | nil => exact fun _ _ _ p hp => absurd hp List.not_mem_nil
  | cons e es ih =>
      intro base hown hbase hpair p hp
      obtain ⟨hptrs, hpair⟩ := List.pairwise_cons.mp hpair
      have hrest : ∀ d ∈ es, typeSize structs d = own := fun d hd => hown d (List.mem_cons_of_mem _ hd)
      rcases List.mem_cons.mp hp with rfl | hp
      · rcases hbase with rfl | ⟨rfl, hfour⟩
        · unfold elementSize
          rw [hown _ (List.mem_cons_self ..)]
        · simp only [ite_self]
          exact hfour _ (List.mem_cons_self ..)
      · refine ih hrest ?_ hpair p hp
        by_cases hptr : 0 < e.ptrlvl
        · exact .inr ⟨if_pos hptr, fun d hd => hptrs d hd hptr⟩
        · rw [if_neg hptr]
          exact hbase.imp_right fun h => ⟨h.1, fun d hd => h.2 d (List.mem_cons_of_mem _ hd)⟩

/-- Behind a pointer, elements that have the bytes of their type have four. -/
theorem asides_four : ∀ {es : List Record}, (∀ p ∈ asides 4 es, elementSize structs p.1 = p.2) →
    ∀ e ∈ es, elementSize structs e = 4 := by
  intro es
  induction es with
  | nil => exact fun _ e he => absurd he List.not_mem_nil
  | cons d es ih =>
      intro hall e he
      have hd := hall _ (List.mem_cons_self ..)
      have htail := fun p hp => hall p (List.mem_cons_of_mem _ hp)
      simp only [ite_self] at hd htail
      rcases List.mem_cons.mp he with rfl | he
      · exact hd
      · exact ih htail e he

theorem asides_pointers : ∀ {es : List Record} {base : Int},
    (∀ p ∈ asides base es, elementSize structs p.1 = p.2) →
    es.Pairwise fun p e => 0 < p.ptrlvl → elementSize structs e ≤ 4 := by
  intro es
  induction es with
  | nil => exact fun _ => .nil
  | cons e es ih =>
      intro base hall
      have htail := fun p hp => hall p (List.mem_cons_of_mem _ hp)
      refine List.pairwise_cons.mpr ⟨fun d hd hptr => ?_, ih htail⟩
      rw [if_pos hptr] at htail
      exact Int.le_of_eq (asides_four htail d hd)

theorem OneType.typeSize {e : Record} (h : OneType (e :: es)) :
    ∀ d ∈ e :: es, typeSize structs d = typeSize structs e := by
  intro d hd
  unfold Eke.typeSize
  rcases List.mem_cons.mp hd with rfl | hd
  · rfl
  · rw [h d hd]

/-- The variables lie apart if their slots do. -/
theorem parted_iff : Parted 0 y ((D.flatMap (listAsides structs)).map (asideSlot structs)) ↔
    (D.flatten.Pairwise fun d e => ∀ a, d.StandsAt structs a → ¬ e.StandsAt structs a) ∧
      ∀ e ∈ D.flatten, ∀ a, e.StandsAt structs a → 0 ≤ a ∧ a < y := by
  rw [← flat_fst structs D, List.forall_mem_map, List.pairwise_map]
  constructor
  · intro h
    have hdisj := h.disjoint
    rw [List.pairwise_map] at hdisj
    exact ⟨hdisj, List.forall_mem_map.mp h.inside⟩
  · intro h
    refine ⟨?_, List.forall_mem_map.mpr h.2⟩
    rw [List.pairwise_map]
    exact h.1

/-- In each list, the bytes of an element are those of its type or four. -/
theorem flat_base (htype : ∀ es ∈ D, OneType es) {p : Record × Int}
    (hp : p ∈ D.flatMap (listAsides structs)) : p.2 = elementSize structs p.1 ∨ p.2 = 4 := by
  obtain ⟨es, hes, hp⟩ := List.mem_flatMap.mp hp
  have hone := htype es hes
  cases es with
  | nil => exact absurd hp List.not_mem_nil
  | cons e es => exact asides_base hone.typeSize (.inl rfl) p hp

theorem flat_room (htype : ∀ es ∈ D, OneType es) (h : Placeable structs D) {p : Record × Int}
    (hp : p ∈ D.flatMap (listAsides structs)) : elementSize structs p.1 ≤ p.2 := by
  obtain ⟨es, hes, hp⟩ := List.mem_flatMap.mp hp
  have hone := htype es hes
  have hptrs := h.pointers es hes
  cases es with
  | nil => exact absurd hp List.not_mem_nil
  | cons e es => exact asides_room hone.typeSize (.inl rfl) hptrs p hp

theorem flat_pointers (h : ∀ p ∈ D.flatMap (listAsides structs), elementSize structs p.1 = p.2) :
    ∀ es ∈ D, es.Pairwise fun p e => 0 < p.ptrlvl → elementSize structs e ≤ 4 := by
  intro es hes
  have hlist : ∀ p ∈ listAsides structs es, elementSize structs p.1 = p.2 :=
    fun p hp => h p (List.mem_flatMap.mpr ⟨es, hes, hp⟩)
  cases es with
  | nil => exact .nil
  | cons e es => exact asides_pointers hlist

/-- Variables whose lists are placeable lie apart. -/
theorem Placeable.apart (hlaid : Laid int32 0 ((D.flatMap (listAsides structs)).map (asideSlot structs)) y)
    (htype : ∀ es ∈ D, OneType es) (h : Placeable structs D) : LieApart structs D.flatten y := by
  have hsize : ∀ p ∈ D.flatMap (listAsides structs), 1 ≤ p.1.size :=
    fun p hp => h.elements p.1 (fst_mem hp)
  have haside : ∀ s ∈ (D.flatMap (listAsides structs)).map (asideSlot structs), 0 ≤ s.aside := by
    intro s hs
    obtain ⟨p, hp, rfl⟩ := List.mem_map.mp hs
    have hone := hsize p hp
    have hle := flat_room htype h hp
    have hnonneg := h.sizes p.1 (fst_mem hp)
    exact Int.mul_nonneg (by omega) (by omega)
  have hused : ∀ s ∈ (D.flatMap (listAsides structs)).map (asideSlot structs), s.used ≤ s.aside := by
    intro s hs
    obtain ⟨p, hp, rfl⟩ := List.mem_map.mp hs
    have hone := hsize p hp
    exact Int.mul_le_mul_of_nonneg_left (flat_room htype h hp) (by omega)
  have hsum : (((D.flatMap (listAsides structs)).map (asideSlot structs)).map Slot.aside).sum ≤
      (D.flatten.map fun e => e.size * max 4 (elementSize structs e)).sum := by
    rw [← flat_fst structs D, List.map_map, List.map_map]
    refine List.sum_le_sum fun p hp => ?_
    have hone := hsize p hp
    have hbase := flat_base htype hp
    exact Int.mul_le_mul_of_nonneg_left (by omega) (by omega)
  have hroom := h.room
  have hexact := hlaid.unwrapped (fun z => int32_same) (Int.le_refl 0) haside (by omega)
  obtain ⟨hdisj, hin⟩ := parted_iff.mp (hexact.parted haside hused)
  exact ⟨h.elements, hdisj, hin⟩

/-- Variables that lie apart have placeable lists, if every struct among them has a member. -/
theorem LieApart.placeable (hlaid : Laid int32 0 ((D.flatMap (listAsides structs)).map (asideSlot structs)) y)
    (htype : ∀ es ∈ D, OneType es) (hfour : ∀ e ∈ D.flatten, 4 ≤ elementSize structs e)
    (h : LieApart structs D.flatten y) : Placeable structs D := by
  have hsize : ∀ p ∈ D.flatMap (listAsides structs), 1 ≤ p.1.size :=
    fun p hp => h.elements p.1 (fst_mem hp)
  have hle : ∀ p ∈ D.flatMap (listAsides structs), 0 ≤ p.2 ∧ p.2 ≤ elementSize structs p.1 := by
    intro p hp
    have hbase := flat_base htype hp
    have h4 := hfour p.1 (fst_mem hp)
    omega
  have htight := hlaid.tight (fun z => int32_same) int32_lt (by decide)
    (fun s hs => by
      obtain ⟨p, hp, rfl⟩ := List.mem_map.mp hs
      have hone := hsize p hp
      exact Int.mul_nonneg (by omega) (hle p hp).1)
    (fun s hs => by
      obtain ⟨p, hp, rfl⟩ := List.mem_map.mp hs
      have hone := hsize p hp
      exact Int.mul_le_mul_of_nonneg_left (hle p hp).2 (by omega))
    (parted_iff.mpr ⟨h.disjoint, h.inside⟩)
  refine ⟨h.elements, fun e he => Int.le_trans (by decide) (hfour e he), ?_, ?_⟩
  · refine flat_pointers fun p hp => ?_
    have hone := hsize p hp
    exact Int.eq_of_mul_eq_mul_left (by omega) (htight.2 _ (List.mem_map_of_mem hp))
  · refine lt_of_eq_of_lt ?_ htight.1
    rw [← flat_fst structs D, List.map_map, List.map_map]
    refine congrArg List.sum (List.map_congr_left fun p hp => ?_)
    have h4 := hfour p.1 (fst_mem hp)
    exact congrArg (p.1.size * ·) (Int.max_eq_right h4)

/-! ### What the parser declares -/

namespace Parser

open Prog

variable {α : Type} {s t u : Parser} {r : Calls} {x : P α}

/-- Nothing is declared from `s` to `t`. -/
structure Undeclared (s t : Parser) : Prop where
  tokens : t.tokens = s.tokens
  tp1 : s.tp1 ≤ t.tp1
  bp : t.bp = s.bp
  sp : t.sp = s.sp
  symtab : t.symtab = s.symtab
  structs : t.struct_table = s.struct_table

theorem Undeclared.refl (s : Parser) : Undeclared s s := ⟨rfl, Nat.le_refl _, rfl, rfl, rfl, rfl⟩

theorem Undeclared.trans (s t u : Parser) (h : Undeclared s t) (h' : Undeclared t u) : Undeclared s u :=
  ⟨h'.tokens.trans h.tokens, Nat.le_trans h.tp1 h'.tp1, h'.bp.trans h.bp, h'.sp.trans h.sp,
    h'.symtab.trans h.symtab, h'.structs.trans h.structs⟩

theorem leaning_undeclared (f : Parser → α) : Prog.Keeps Undeclared (leaning f) := by
  intro s a t h
  cases h
  exact ⟨rfl, Nat.le_refl _, rfl, rfl, rfl, rfl⟩

theorem symbol_undeclared (f : Record → α) (id : Int) : Prog.Keeps Undeclared (symbol f id) := by
  intro s a t h
  unfold symbol at h
  split at h
  · cases h
    exact Undeclared.refl _
  · cases h

theorem oldSymbol_undeclared (own : Record → Bool) (f : Record → α) (id : Int) :
    Prog.Keeps Undeclared (oldSymbol own f id) := by
  intro s a t h
  unfold oldSymbol at h
  split at h
  · obtain ⟨-, rfl⟩ := Out.ok.inj h
    split
    · exact Undeclared.refl _
    · exact ⟨rfl, Nat.le_refl _, rfl, rfl, rfl, rfl⟩
  · cases h

/-- The steps of expressions declare nothing. -/
theorem undeclared : Looking fun α (x : P α) => Prog.Keeps Undeclared x where
  toRules := keeps_rules Undeclared.refl Undeclared.trans
  peek := keeps_gets Undeclared.refl _
  match_ _ := keeps_gets Undeclared.refl _
  forward := keeps_update fun s => ⟨rfl, Nat.le_succ s.tp1, rfl, rfl, rfl, rfl⟩
  tokenName i := by
    refine (keeps_rules Undeclared.refl Undeclared.trans).bind (keeps_gets Undeclared.refl _) fun n => ?_
    split
    · exact keeps_gets Undeclared.refl _
    · exact (keeps_rules Undeclared.refl Undeclared.trans).undefined
  thisToken := keeps_gets Undeclared.refl _
  lastToken := keeps_gets Undeclared.refl _
  find_symbol _ := keeps_gets Undeclared.refl _
  kind := symbol_undeclared _
  offset := symbol_undeclared _
  struct_id := oldSymbol_undeclared _ _
  leaning := leaning_undeclared

/-- The same steps, under any relation that allows what they do. -/
theorem looking_keeps {R : Parser → Parser → Prop} (hrefl : ∀ s, R s s)
    (htrans : ∀ s t u, R s t → R t u → R s u) (hR : ∀ s t, Undeclared s t → R s t) :
    Looking fun α (x : P α) => Prog.Keeps R x :=
  undeclared.mono (keeps_rules hrefl htrans) fun h => h.mono hR

theorem expression_undeclared : ∀ n p, Prog.Keeps Undeclared ((calls n).parse_expression p) := by
  intro n
  induction n with
  | zero => exact fun _ => undeclared.more
  | succ n ih =>
      intro p
      exact parse_expression_rule undeclared (r := ⟨(calls n).fuel, (calls n).parse_expression, more⟩)
        ⟨ih, undeclared.more⟩ p

/-- All that changes is the dimensions of the symbol `i`. -/
structure Measures (i : Nat) (s t : Parser) : Prop where
  bp : t.bp = s.bp
  sp : t.sp = s.sp
  structs : t.struct_table = s.struct_table
  others : ∀ j, j ≠ i → t.symtab j = s.symtab j
  ptrlvl : (t.symtab i).ptrlvl = (s.symtab i).ptrlvl

theorem Measures.refl {i : Nat} (s : Parser) : Measures i s s := ⟨rfl, rfl, rfl, fun _ _ => rfl, rfl⟩

theorem Measures.trans {i : Nat} (s t u : Parser) (h : Measures i s t) (h' : Measures i t u) :
    Measures i s u :=
  ⟨h'.bp.trans h.bp, h'.sp.trans h.sp, h'.structs.trans h.structs,
    fun j hj => (h'.others j hj).trans (h.others j hj), h'.ptrlvl.trans h.ptrlvl⟩

theorem Undeclared.measures {i : Nat} (h : Undeclared s t) : Measures i s t :=
  ⟨h.bp, h.sp, h.structs, fun j _ => by rw [h.symtab], by rw [h.symtab]⟩

theorem measuring (i : Nat) : Looking fun α (x : P α) => Prog.Keeps (Measures i) x :=
  looking_keeps Measures.refl Measures.trans fun _ _ => Undeclared.measures

theorem setDim_measures (i dc : Nat) (v : Int) : Prog.Keeps (Measures i) (setDim i dc v) := by
  intro s a t h
  unfold setDim modifySymbol at h
  split at h
  · rw [if_pos (Int.natCast_nonneg i)] at h
    obtain ⟨-, rfl⟩ := Out.ok.inj h
    refine ⟨rfl, rfl, rfl, fun j hj => if_neg hj, ?_⟩
    simp only [setSymbol, Int.toNat_natCast, if_true]
  · cases h

theorem initializer_measures (hr : ∀ p, Prog.Keeps Undeclared (r.parse_expression p)) (i : Nat) (te : Int) :
    Prog.Keeps (Measures i) (initializer r i te) :=
  initializer_rule (measuring i) (r := ⟨r.fuel, r.parse_expression, more⟩)
    ⟨fun p => (hr p).mono fun _ _ => Undeclared.measures, (measuring i).more⟩ te (setDim_measures i)
    ((oldSymbol_undeclared _ _ _).mono fun _ _ => Undeclared.measures)

/-- One more variable, of the struct `struct_id`, behind `offset` bytes of its list: there are
`base_size` bytes an element in front of it. -/
structure NewVariable (struct_id base_size offset base_size' offset' : Int) (s t : Parser) : Prop where
  bp : t.bp = s.bp
  sp : t.sp = s.sp + 1
  structs : t.struct_table = s.struct_table
  others : ∀ j, j < s.sp → t.symtab j = s.symtab j
  place : (t.symtab s.sp).offset = int32 (s.bp + offset)
  struct_id : (t.symtab s.sp).struct_id = struct_id
  base : base_size' = if 0 < (t.symtab s.sp).ptrlvl then 4 else base_size
  next : offset' = int32 (offset + int32 (base_size' * (t.symtab s.sp).size))

/-- The symbol that was added last, with what is changed by adding it. -/
theorem added_measures {β : Type} {tok : Token} {bp isg gt data_type lvl : Int} {k : Int → P β} {b : β}
    {s' : Parser}
    (h : (add_to_symtab tok bp isg gt data_type lvl >>= fun _ => find_symbol tok.name >>= k) s = .ok b s') :
    ∃ u, k s.sp u = .ok b s' ∧ u.bp = s.bp ∧ u.sp = s.sp + 1 ∧ u.struct_table = s.struct_table ∧
      (∀ j, j < s.sp → u.symtab j = s.symtab j) ∧ (u.symtab s.sp).ptrlvl = lvl := by
  obtain ⟨_, u, hu, h⟩ := bind_ok_iff.mp h
  obtain ⟨id, v, hid, h⟩ := bind_ok_iff.mp h
  have hadded := add_to_symtab_added _ _ _ hu
  have hfound : id = s.sp := by
    rw [← (Out.ok.inj hid).1]
    show symbolBelow u.symtab tok.name u.sp = s.sp
    rw [hadded.sp, symbolBelow, if_pos hadded.name]
  rw [hfound, ← (Out.ok.inj hid).2] at h
  refine ⟨u, h, ?_⟩
  obtain ⟨sp, v, hsp, hu⟩ := bind_ok_iff.mp hu
  cases hsp
  split at hu
  · obtain ⟨-, rfl⟩ := Out.ok.inj hu
    refine ⟨rfl, rfl, rfl, fun j hj => if_neg (Nat.ne_of_lt hj), ?_⟩
    simp only [setSymbol, if_true]
  · cases hu

theorem NewVariable.before {a b c b' c' : Int} (h : Undeclared s t) (h' : NewVariable a b c b' c' t u) :
    NewVariable a b c b' c' s u := by
  obtain ⟨hbp, hsp, hstructs, hothers, hplace, hid, hbase, hnext⟩ := h'
  rw [h.sp] at hsp hothers hplace hid hbase hnext
  rw [h.bp] at hbp hplace
  rw [h.structs] at hstructs
  rw [h.symtab] at hothers
  exact ⟨hbp, hsp, hstructs, hothers, hplace, hid, hbase, hnext⟩

theorem declarator_new (hr : ∀ p, Prog.Keeps Undeclared (r.parse_expression p))
    {base_type struct_id base_size offset : Int} {d : Node × Int × Int}
    (h : declarator r base_type struct_id base_size offset s = .ok d t) :
    NewVariable struct_id base_size offset d.2.1 d.2.2 s t := by
  obtain ⟨count, s₁, h₁, h⟩ := (stars_rule undeclared).split h
  obtain ⟨d_tok, s₂, h₂, h⟩ := (consume_rule undeclared _).split h
  obtain ⟨tid, _, ht, h⟩ := bind_ok_iff.mp h
  cases ht
  obtain ⟨bp, _, hb, h⟩ := bind_ok_iff.mp h
  cases hb
  obtain ⟨n, _, hn, h⟩ := bind_ok_iff.mp h
  cases hn
  obtain ⟨s₃, h, hbp, hsp, hstructs, hothers, hlvl⟩ := added_measures h
  obtain ⟨bounds, s₄, h₄, h⟩ := (localBounds_rule (measuring s₂.sp) (setDim_measures s₂.sp)).split h
  obtain ⟨value, s₅, h₅, h⟩ := (initializer_measures hr s₂.sp _).split h
  obtain ⟨_, s₆, h₆, h⟩ := bind_ok_iff.mp h
  obtain ⟨rfl, rfl⟩ := Out.ok.inj h
  obtain ⟨-, rfl⟩ := Out.ok.inj (show Out.ok () _ = Out.ok () s₆ by simpa [modifySymbol, update] using h₆)
  have hpre : Undeclared s s₂ := h₁.trans _ _ _ h₂
  have hmeas : Measures s₂.sp s₃ s₅ := h₄.trans _ _ _ h₅
  have hptr : (s₅.symtab s₂.sp).ptrlvl = count := hmeas.ptrlvl.trans hlvl
  refine NewVariable.before hpre ⟨hmeas.bp.trans hbp, hmeas.sp.trans hsp, hmeas.structs.trans hstructs,
    fun j hj => ?_, ?_, ?_, ?_, ?_⟩
  · rw [← hothers j hj, ← hmeas.others j (Nat.ne_of_lt hj)]
    exact if_neg (Nat.ne_of_lt hj)
  · simp only [setSymbol, if_true]
  · simp only [setSymbol, if_true, Record.complete]
  · simp only [setSymbol, if_true, Record.complete, hptr]
  · simp only [setSymbol, if_true, Record.complete]

/-! ### One declaration list -/

/-- The symbols that have come from `s` to `t`. -/
def between (s t : Parser) : List Record := (List.range' s.sp (t.sp - s.sp)).map t.symtab

theorem between_cons (h : s.sp < t.sp) (hu : u.sp = s.sp + 1) :
    between s t = t.symtab s.sp :: between u t := by
  unfold between
  rw [hu, show t.sp - s.sp = (t.sp - (s.sp + 1)) + 1 by omega, List.range'_succ, List.map_cons]

theorem between_self (h : t.sp = s.sp) : between s t = [] := by
  unfold between
  rw [h, Nat.sub_self]
  rfl

/-- The variables of a list, one behind another. -/
inductive NewList (struct_id : Int) : Int → Int → Int → Parser → Parser → Prop
  | last {b o b' o' : Int} {s t u : Parser} : NewVariable struct_id b o b' o' s t → Undeclared t u →
      NewList struct_id b o o' s u
  | next {b o b' o' z : Int} {s t u v : Parser} : NewVariable struct_id b o b' o' s t → Undeclared t u →
      NewList struct_id b' o' z u v → NewList struct_id b o z s v

/-- What a list of variables leaves as it is, and where it places them. -/
structure Listed (struct_id b o o' : Int) (s t : Parser) : Prop where
  bp : t.bp = s.bp
  sp : s.sp < t.sp
  structs : t.struct_table = s.struct_table
  others : ∀ j, j < s.sp → t.symtab j = s.symtab j
  types : ∀ e ∈ between s t, e.struct_id = struct_id
  laid : Laid int32 (int32 (s.bp + o)) ((asides b (between s t)).map (asideSlot s.struct_table))
    (int32 (s.bp + o'))

theorem int32_step (a b c d : Int) :
    int32 (int32 (a + b) + c * d) = int32 (a + int32 (b + int32 (d * c))) := by
  unfold int32
  rw [Int.bmod_add_bmod, Int.add_bmod_bmod, ← Int.add_assoc, Int.add_bmod_bmod, Int.mul_comm]

/-- The first variable of a list is placed, and the next one behind what is set aside for it. -/
theorem NewVariable.placed {id b o b' o' : Int} {ps : List (Record × Int)} {z : Int}
    (h : NewVariable id b o b' o' s t)
    (hrest : Laid int32 (int32 (s.bp + o')) (ps.map (asideSlot s.struct_table)) z) :
    Laid int32 (int32 (s.bp + o)) (((t.symtab s.sp, b') :: ps).map (asideSlot s.struct_table)) z := by
  rw [h.next, ← int32_step, ← h.place] at hrest
  rw [← h.place]
  exact Laid.cons (s := asideSlot s.struct_table (t.symtab s.sp, b')) hrest

theorem NewList.listed {id b o o' : Int} (h : NewList id b o o' s t) : Listed id b o o' s t := by
  induction h with
  | @last b o b' o' s t u hnew hu =>
      have hsp : u.sp = s.sp + 1 := hu.sp.trans hnew.sp
      have hes : between s u = [t.symtab s.sp] := by
        rw [between_cons (u := u) (by omega) hsp, between_self rfl, hu.symtab]
      have hasides : asides b [t.symtab s.sp] = [(t.symtab s.sp, b')] := by
        rw [hnew.base]
        rfl
      refine ⟨hu.bp.trans hnew.bp, by omega, hu.structs.trans hnew.structs, fun j hj => ?_, ?_, ?_⟩
      · rw [hu.symtab]
        exact hnew.others j hj
      · rw [hes]
        intro e he
        rw [List.mem_singleton.mp he]
        exact hnew.struct_id
      · rw [hes, hasides]
        exact hnew.placed .nil
  | @next b o b' o' z s t u v hnew hu _ ih =>
      have hsp : u.sp = s.sp + 1 := hu.sp.trans hnew.sp
      have hlt := ih.sp
      have hbp : u.bp = s.bp := hu.bp.trans hnew.bp
      have hstructs : u.struct_table = s.struct_table := hu.structs.trans hnew.structs
      have hfirst : v.symtab s.sp = t.symtab s.sp := by
        rw [ih.others _ (by omega), hu.symtab]
      have hes : between s v = t.symtab s.sp :: between u v := by
        rw [between_cons (by omega) hsp, hfirst]
      have hasides : asides b (t.symtab s.sp :: between u v) =
          (t.symtab s.sp, b') :: asides b' (between u v) := by
        rw [hnew.base]
        rfl
      have hlaid := ih.laid
      rw [hbp, hstructs] at hlaid
      refine ⟨ih.bp.trans hbp, by omega, ih.structs.trans hstructs, fun j hj => ?_, ?_, ?_⟩
      · rw [ih.others j (by omega), hu.symtab]
        exact hnew.others j hj
      · rw [hes]
        intro e he
        rcases List.mem_cons.mp he with rfl | he
        · exact hnew.struct_id
        · exact ih.types e he
      · rw [hes, hasides]
        exact hnew.placed hlaid

/-- The rounds of a declaration list. -/
theorem rounds_newList (hr : ∀ p, Prog.Keeps Undeclared (r.parse_expression p)) (base_type struct_id : Int) :
    ∀ (n : Nat) (d : List Node × Int × Int) (s : Parser) (res : List Node × Int) (t : Parser),
      cycle n (fun d : List Node × Int × Int => do
        let (n, base_size, curroffset) ← declarator r base_type struct_id d.2.1 d.2.2
        if ← more_declarators then pure (.inl (d.1 ++ [n], base_size, curroffset))
        else pure (.inr (d.1 ++ [n], curroffset) : (List Node × Int × Int) ⊕ (List Node × Int))) d s =
          .ok res t →
      NewList struct_id d.2.1 d.2.2 res.2 s t := by
  intro n
  induction n with
  | zero => exact fun _ _ _ _ h => nomatch h
  | succ n ih =>
      intro d s res t h
      obtain ⟨c, u, hu, h⟩ := bind_ok_iff.mp h
      obtain ⟨e, v, hv, hu⟩ := bind_ok_iff.mp hu
      obtain ⟨m, w, hm, hu⟩ := (more_declarators_rule undeclared).split hu
      have hnew := declarator_new hr hv
      split at hu
      · cases hu
        exact .next hnew hm (ih _ _ _ _ h)
      · cases hu
        cases h
        exact .last hnew hm

theorem typeStruct_size {tok : Token} {ty : Token × Int × Int} (h : typeStruct tok s = .ok ty t) :
    ty.2.2 = if ty.2.1 = -1 then 4 else (s.struct_table ty.2.1.toNat).size := by
  unfold typeStruct at h
  split at h
  · obtain ⟨rt, s₁, h₁, h⟩ := bind_ok_iff.mp h
    have hrt : Undeclared s s₁ := by
      split at h₁
      · exact consume_rule undeclared _ _ _ _ h₁
      · exact undeclared.pure _ _ _ _ h₁
    obtain ⟨id, s₂, h₂, h⟩ := (find_struct_rule undeclared _).split h
    split at h
    · cases h
    · rename_i hid
      obtain ⟨e, s₃, h₃, h⟩ := bind_ok_iff.mp h
      cases h
      obtain ⟨f, s₄, h₄, h₃⟩ := bind_ok_iff.mp h₃
      obtain ⟨rfl, rfl⟩ := Out.ok.inj h₄
      by_cases hold : s₂.old < id
      · simp only [if_pos hold] at h₃
        cases h₃
        simp only [if_neg hid]
        rw [← hrt.structs, ← h₂.structs]
      · simp only [if_neg hold] at h₃
        cases h₃
  · cases h
    rfl

/-- What a declaration list does. -/
structure ListDeclared (s t : Parser) : Prop where
  sp : s.sp < t.sp
  structs : t.struct_table = s.struct_table
  others : ∀ j, j < s.sp → t.symtab j = s.symtab j
  type : OneType (between s t)
  bp : int32 t.bp = t.bp
  laid : Laid int32 (int32 s.bp) ((listAsides s.struct_table (between s t)).map (asideSlot s.struct_table)) t.bp

theorem Listed.declared {id b o : Int} (h : Listed id b 0 o s t)
    (hb : b = if id = -1 then 4 else (s.struct_table id.toNat).size) :
    OneType (between s t) ∧ Laid int32 (int32 s.bp)
      ((listAsides s.struct_table (between s t)).map (asideSlot s.struct_table)) (int32 (s.bp + o)) := by
  have htypes := h.types
  have hlaid := h.laid
  rw [Int.add_zero] at hlaid
  cases hes : between s t with
  | nil =>
      rw [hes] at hlaid
      exact ⟨trivial, hlaid⟩
  | cons e es =>
      rw [hes] at htypes hlaid
      have he := htypes e (List.mem_cons_self ..)
      refine ⟨fun d hd => (htypes d (List.mem_cons_of_mem _ hd)).trans he.symm, ?_⟩
      have hsize : typeSize s.struct_table e = b := by
        unfold typeSize
        rw [he, hb]
      show Laid int32 _ ((asides (typeSize s.struct_table e) (e :: es)).map _) _
      rw [hsize]
      exact hlaid

theorem ListDeclared.widen {v : Parser} (h : ListDeclared t u) (hs : Undeclared s t) (hv : Undeclared u v) :
    ListDeclared s v := by
  obtain ⟨hsp, hstructs, hothers, htype, hbp, hlaid⟩ := h
  have hbetween : between s v = between t u := by
    unfold between
    rw [hs.sp, hv.sp, hv.symtab]
  rw [hs.sp] at hsp hothers
  rw [hs.bp, hs.structs] at hlaid
  refine ⟨by rw [hv.sp]; exact hsp, hv.structs.trans (hstructs.trans hs.structs), fun j hj => ?_, ?_, ?_, ?_⟩
  · rw [hv.symtab, hothers j hj, hs.symtab]
  · rw [hbetween]
    exact htype
  · rw [hv.bp]
    exact hbp
  · rw [hbetween, hv.bp]
    exact hlaid

theorem parse_declaration_declared (hr : ∀ p, Prog.Keeps Undeclared (r.parse_expression p)) :
    Prog.Keeps ListDeclared (parse_declaration r) := by
  intro s c t h
  obtain ⟨tok, s₁, h₁, h⟩ := undeclared.peek.split h
  obtain ⟨b, s₂, h₂, h⟩ := (is_type_rule undeclared _).split h
  split at h
  case isFalse => cases h
  obtain ⟨rt, s₃, h₃, h⟩ := (advance_rule undeclared).split h
  obtain ⟨ty, s₄, h₄, h⟩ := bind_ok_iff.mp h
  have hsize := typeStruct_size h₄
  have h₄' := typeStruct_rule undeclared _ _ _ _ h₄
  obtain ⟨res, s₅, h₅, h⟩ := bind_ok_iff.mp h
  have hlist := (rounds_newList hr _ _ _ _ _ _ _ h₅).listed
  obtain ⟨_, s₆, h₆, h⟩ := bind_ok_iff.mp h
  obtain ⟨-, rfl⟩ := Out.ok.inj h₆
  obtain ⟨_, s₇, h₇, h⟩ := (consume_rule undeclared _).split h
  cases h
  have hpre : Undeclared s s₄ := ((h₁.trans _ _ _ h₂).trans _ _ _ h₃).trans _ _ _ h₄'
  rw [← h₄'.structs] at hsize
  obtain ⟨htype, hlaid⟩ := hlist.declared hsize
  have hmid : ListDeclared s₄ { s₅ with bp := int32 (s₅.bp + res.2) } :=
    ⟨hlist.sp, hlist.structs, hlist.others, htype, int32_int32 _, by rw [hlist.bp]; exact hlaid⟩
  exact hmid.widen hpre h₇

/-! ### The lists of a function -/

/-- From `s` to `t` the declaration lists `D` are parsed, and nothing else is declared. -/
inductive Lists : Parser → Parser → List (List Record) → Prop
  | none {s t : Parser} : Undeclared s t → Lists s t []
  | list {n : Nat} {c : Node} {s t u v : Parser} {D : List (List Record)} : Undeclared s t →
      parse_declaration (calls n) t = .ok c u → Lists u v D → Lists s v (between t u :: D)

theorem Lists.behind {D : List (List Record)} (hs : Undeclared s t) (h : Lists t u D) : Lists s u D := by
  cases h with
  | none hu => exact .none (hs.trans _ _ _ hu)
  | list hu hdecl hrest => exact .list (hs.trans _ _ _ hu) hdecl hrest

theorem Lists.append {D E : List (List Record)} (h : Lists s t D) (h' : Lists t u E) :
    Lists s u (D ++ E) := by
  induction h with
  | none hs => exact h'.behind hs
  | list hs hdecl _ ih => exact .list hs hdecl (ih h')

/-- Some lists are declared. -/
def Enlists (s t : Parser) : Prop := ∃ D, Lists s t D

theorem Enlists.trans (s t u : Parser) (h : Enlists s t) (h' : Enlists t u) : Enlists s u := by
  obtain ⟨D, hD⟩ := h
  obtain ⟨E, hE⟩ := h'
  exact ⟨D ++ E, hD.append hE⟩

theorem enlisting : Looking fun α (x : P α) => Prog.Keeps Enlists x :=
  looking_keeps (fun s => ⟨[], .none (Undeclared.refl s)⟩) Enlists.trans fun _ _ h => ⟨[], .none h⟩

theorem calls_enlist : ∀ n, CallsHave (fun α (x : P α) => Prog.Keeps Enlists x) (calls n) := by
  intro n
  induction n with
  | zero => exact ⟨fun _ => enlisting.more, enlisting.more⟩
  | succ n ih =>
      have hdecl : Prog.Keeps Enlists (parse_declaration (calls n)) :=
        fun s c t h => ⟨[between s t], .list (Undeclared.refl s) h (.none (Undeclared.refl t))⟩
      exact ⟨fun p => parse_expression_rule enlisting ih p, parse_statement_rule enlisting ih hdecl⟩

theorem between_append (hst : s.sp ≤ t.sp) (htu : t.sp ≤ u.sp)
    (hsym : ∀ j, j < t.sp → u.symtab j = t.symtab j) : between s u = between s t ++ between t u := by
  unfold between
  rw [show u.sp - s.sp = (t.sp - s.sp) + (u.sp - t.sp) by omega, ← List.range'_append_1, List.map_append,
    show s.sp + (t.sp - s.sp) = t.sp by omega]
  congr 1
  refine List.map_congr_left fun j hj => hsym j ?_
  have := (List.mem_range'_1.mp hj).2
  omega

/-- What the declaration lists between two states do. -/
structure Gathered (D : List (List Record)) (s t : Parser) : Prop where
  sp : s.sp ≤ t.sp
  structs : t.struct_table = s.struct_table
  others : ∀ j, j < s.sp → t.symtab j = s.symtab j
  flatten : D.flatten = between s t
  types : ∀ es ∈ D, OneType es
  laid : int32 s.bp = s.bp →
    Laid int32 s.bp ((D.flatMap (listAsides s.struct_table)).map (asideSlot s.struct_table)) t.bp

theorem Lists.gathered {D : List (List Record)} (h : Lists s t D) : Gathered D s t := by
  induction h with
  | none hs =>
      refine ⟨Nat.le_of_eq hs.sp.symm, hs.structs, fun j _ => by rw [hs.symtab], (between_self hs.sp).symm,
        fun es hes => absurd hes List.not_mem_nil, fun _ => ?_⟩
      rw [hs.bp]
      exact .nil
  | @list n c s t u v D hs hdecl _ ih =>
      have hlist := (parse_declaration_declared (expression_undeclared n) _ _ _ hdecl).widen hs
        (Undeclared.refl u)
      have hbetween : between s u = between t u := by
        unfold between
        rw [hs.sp]
      have hlt := hlist.sp
      have hle := ih.sp
      refine ⟨by omega, ih.structs.trans hlist.structs, fun j hj => ?_, ?_, ?_, fun hnorm => ?_⟩
      · rw [ih.others j (by omega), hlist.others j hj]
      · rw [List.flatten_cons, ih.flatten, ← hbetween, ← between_append (by omega) hle ih.others]
      · intro es hes
        rcases List.mem_cons.mp hes with rfl | hes
        · rw [← hbetween]
          exact hlist.type
        · exact ih.types es hes
      · have hfirst := hlist.laid
        have hrest := ih.laid hlist.bp
        rw [hnorm, hbetween] at hfirst
        rw [hlist.structs] at hrest
        rw [List.flatMap_cons, List.map_append]
        exact hfirst.append hrest

/-! ### A function -/

/-- The body of a function, behind its parameters. -/
theorem functionRest_enlists {n : Nat} {h : Token × Token × Nat} {d : List Node × Int} {f : Node}
    (hrest : functionRest (calls n) h d s = .ok f t) (hbody : f.body ≠ .null) :
    Enlists { s with bp := 0 } t ∧ f.localBytes = t.bp := by
  obtain ⟨_, s₁, h₁, hrest⟩ := (consume_rule undeclared _).split hrest
  obtain ⟨b, s₂, h₂, hrest⟩ := (undeclared.match_ _).split hrest
  split at hrest
  · obtain ⟨_, s₃, -, hrest⟩ := bind_ok_iff.mp hrest
    cases hrest
    exact absurd rfl hbody
  · obtain ⟨_, s₃, h₃, hrest⟩ := bind_ok_iff.mp hrest
    obtain ⟨-, rfl⟩ := Out.ok.inj h₃
    obtain ⟨body, s₄, h₄, hrest⟩ := bind_ok_iff.mp hrest
    cases hrest
    obtain ⟨D, hD⟩ := parse_block_rule enlisting (calls_enlist n) _ _ _ h₄
    have hpre := h₁.trans _ _ _ h₂
    have hzero : Undeclared { s with bp := 0 } { s₂ with bp := 0 } :=
      ⟨hpre.tokens, hpre.tp1, rfl, hpre.sp, hpre.symtab, hpre.structs⟩
    exact ⟨⟨D, Lists.behind hzero hD⟩, rfl⟩

/-- `void f(int n) { int a[3], *p; { char c; } }` -/
def apartText : List Token :=
  [⟨K_VOID, "void".toList⟩, ⟨T_IDENTIFIER, ['f']⟩, ⟨'('.toNat, ['(']⟩, ⟨K_INT, "int".toList⟩,
    ⟨T_IDENTIFIER, ['n']⟩, ⟨')'.toNat, [')']⟩, ⟨'{'.toNat, ['{']⟩, ⟨K_INT, "int".toList⟩,
    ⟨T_IDENTIFIER, ['a']⟩, ⟨'['.toNat, ['[']⟩, ⟨T_INT, ['3']⟩, ⟨']'.toNat, [']']⟩, ⟨','.toNat, [',']⟩,
    ⟨'*'.toNat, ['*']⟩, ⟨T_IDENTIFIER, ['p']⟩, ⟨';'.toNat, [';']⟩, ⟨'{'.toNat, ['{']⟩,
    ⟨K_CHAR, "char".toList⟩, ⟨T_IDENTIFIER, ['c']⟩, ⟨';'.toNat, [';']⟩, ⟨'}'.toNat, ['}']⟩,
    ⟨'}'.toNat, ['}']⟩, ⟨T_EOF, []⟩]

/-- `struct S { int a; int b; }; void f() { struct S *p, s; int x; }` -/
def overlapText : List Token :=
  [⟨K_STRUCT, "struct".toList⟩, ⟨T_IDENTIFIER, ['S']⟩, ⟨'{'.toNat, ['{']⟩, ⟨K_INT, "int".toList⟩,
    ⟨T_IDENTIFIER, ['a']⟩, ⟨';'.toNat, [';']⟩, ⟨K_INT, "int".toList⟩, ⟨T_IDENTIFIER, ['b']⟩,
    ⟨';'.toNat, [';']⟩, ⟨'}'.toNat, ['}']⟩, ⟨';'.toNat, [';']⟩, ⟨K_VOID, "void".toList⟩,
    ⟨T_IDENTIFIER, ['f']⟩, ⟨'('.toNat, ['(']⟩, ⟨')'.toNat, [')']⟩, ⟨'{'.toNat, ['{']⟩,
    ⟨K_STRUCT, "struct".toList⟩, ⟨T_IDENTIFIER, ['S']⟩, ⟨'*'.toNat, ['*']⟩, ⟨T_IDENTIFIER, ['p']⟩,
    ⟨','.toNat, [',']⟩, ⟨T_IDENTIFIER, ['s']⟩, ⟨';'.toNat, [';']⟩, ⟨K_INT, "int".toList⟩,
    ⟨T_IDENTIFIER, ['x']⟩, ⟨';'.toNat, [';']⟩, ⟨'}'.toNat, ['}']⟩, ⟨T_EOF, []⟩]

/-- The variables of a text, by their places, their elements and the sizes of these. -/
def places (s t : Parser) : List (Int × Int × Int) :=
  (between s t).map fun e => (e.offset, e.size, elementSize t.struct_table e)

/-- The places of the variables of a function, and whether it has a body. -/
def located (n : Nat) (s : Parser) : Option (List (Int × Int × Int) × Bool) :=
  match parse_function (calls n) s, header s with
  | .ok f s', .ok hd u =>
      match params (calls n) hd.2.2 u with
      | .ok _ t => some (places t s', f.body.isSome)
      | _ => none
  | _, _ => none

theorem of_located {n : Nat} {v : List (Int × Int × Int)} (h : located n s = some (v, true)) :
    ∃ f hd d s' u t, parse_function (calls n) s = .ok f s' ∧ header s = .ok hd u ∧
      params (calls n) hd.2.2 u = .ok d t ∧ f.body ≠ .null ∧ places t s' = v := by
  unfold located at h
  split at h
  · rename_i f s' hd u hf hhd
    split at h
    · rename_i d t hd'
      obtain ⟨rfl, hbody⟩ := Prod.mk.inj (Option.some.inj h)
      have hnull : f.body ≠ .null := by
        intro hnull
        rw [hnull] at hbody
        cases hbody
      exact ⟨f, hd, d, s', u, t, hf, hhd, hd', hnull, rfl⟩
    · cases h
  · cases h

/-- The state behind the struct definition of a text and the semicolon. -/
def behindStruct (s : Parser) : Parser := (topLevel (calls 9) (topLevel (calls 9) s).state).state

end Parser

end Eke
