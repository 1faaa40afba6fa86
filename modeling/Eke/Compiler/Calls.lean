/-
Calls and definitions.

A call leads to the first entry of the function's name in the global table.  A prototype
is an entry too, and it gets code of its own: with a prototype before the definition
every call goes to the prototype's stub.
-/
import Eke.Compiler.History
import Eke.Compiler.Machine

namespace Eke

open Gen Store X86

variable {xs ys zs : List Item} {f : Name}

/-! ### Where functions begin -/

/-- What can stand in the code of a function's body: no beginning of a function, and no
call by a builtin's name. -/
def Item.inBody : Item → Prop
  | .func _ => False
  | .call name => ¬ isBuiltin name
  | _ => True

theorem store_body (offset : Int) : ∀ i ∈ store_items offset, i.inBody := by
  simp [store_items, Item.inBody]

theorem bin_body (op : Int) : ∀ i ∈ bin_items op, i.inBody := by
  unfold bin_items
  split_ifs <;> simp [Item.inBody]

/-- An instruction that is there under a condition. -/
theorem optional_body {c : Prop} [Decidable c] (o : Op) :
    ∀ i ∈ (if c then [Item.op o] else []), i.inBody := by
  split
  · simp [Item.inBody]
  · simp

theorem pop_body (n : Nat) : ∀ i ∈ pop_items n, i.inBody := by
  unfold pop_items
  simp only [List.forall_mem_append]
  refine ⟨⟨⟨⟨⟨?_, optional_body _⟩, optional_body _⟩, optional_body _⟩, optional_body _⟩, optional_body _⟩
  simp [Item.inBody]

theorem cut_body (n : Nat) (args : Node) : ∀ i ∈ cut_items n args, i.inBody := by
  unfold cut_items
  split <;> simp [Item.inBody]

theorem builtin_body (a : BitVec 64) : ∀ i ∈ builtin_items a, i.inBody := by
  simp [builtin_items, Item.inBody]

theorem epilogue_body : ∀ i ∈ epilogue_items, i.inBody := by simp [epilogue_items, Item.inBody]

theorem call_body (hf : ¬ isBuiltin f) (n : Nat) : ∀ i ∈ call_items f n, i.inBody := by
  unfold call_items
  split <;> simp [Item.inBody, hf]

section

variable (A : Addresses) (L : Limits)

mutual

theorem node_body : ∀ (k : Node) (n : Nat), ∀ i ∈ node_items A L k n, i.inBody
  | .null, n => by simp only [node_items, List.not_mem_nil, false_implies, implies_true]
  | .mk _ k _ _, n => by
      simp only [node_items, List.forall_mem_cons]
      exact ⟨trivial, kind_body k n⟩

theorem cond_body : ∀ (k : Node) (label : Nat) (b : Bool) (n : Nat),
    ∀ i ∈ cond_items A L k label b n, i.inBody
  | .null, label, b, n => by simp only [cond_items, List.not_mem_nil, false_implies, implies_true]
  | .mk _ k _ _, label, b, n => by
      cases k with
      | bin op left right =>
          have hl := node_body left n
          have hr := node_body right (n + allocs (node_items A L left n))
          simp only [cond_items, List.forall_mem_append]
          exact ⟨⟨⟨by simp [Item.inBody], hl⟩, hr⟩, by simp [Item.inBody]⟩
      | _ =>
          simp only [cond_items, List.forall_mem_append]
          exact ⟨⟨by simp [Item.inBody], kind_body _ n⟩, by simp [Item.inBody]⟩

theorem block_body : ∀ (k : Node) (n : Nat), ∀ i ∈ block_items A L k n, i.inBody
  | .null, n => by simp only [block_items, List.not_mem_nil, false_implies, implies_true]
  | .mk _ k _ nx, n => by
      cases k with
      | var dt offset value =>
          simp only [block_items, List.forall_mem_append]
          refine ⟨⟨by simp [Item.inBody], ?_⟩, block_body nx _⟩
          split
          · rw [List.forall_mem_append]
            exact ⟨node_body value n, store_body offset⟩
          · simp
      | _ =>
          simp only [block_items, List.forall_mem_append]
          exact ⟨⟨by simp [Item.inBody], kind_body _ n⟩, block_body nx _⟩

theorem args_body : ∀ (m : Nat) (k : Node) (n : Nat), ∀ i ∈ args_items A L m k n, i.inBody
  | m, .null, n => by
      cases m <;> simp only [args_items, List.not_mem_nil, false_implies, implies_true]
  | m, .mk _ k _ nx, n => by
      cases m with
      | zero => simp only [args_items, List.not_mem_nil, false_implies, implies_true]
      | succ m =>
          simp only [args_items, List.forall_mem_append]
          exact ⟨⟨args_body m nx n, by simp [Item.inBody]⟩, kind_body k _⟩

theorem kind_body : ∀ (k : Kind) (n : Nat), ∀ i ∈ kind_items A L k n, i.inBody
  | .int v, n => by simp [kind_items, Item.inBody]
  | .elem e, n => by simp [kind_items, Item.inBody]
  | .var _ offset _, n => by simp [kind_items, load_items, Item.inBody]
  | .bin op left right, n => by
      have hl := node_body left n
      have hr := node_body right (n + allocs (node_items A L left n))
      simp only [kind_items, List.forall_mem_append]
      exact ⟨⟨⟨⟨hl, hr⟩, by simp [Item.inBody]⟩, bin_body op⟩, by simp [Item.inBody]⟩
  | .assign offset op left right, n => by
      have hr := node_body right n
      have hskip : ∀ i ∈ node_items A L right n ++ [.skip], i.inBody := by
        rw [List.forall_mem_append]
        exact ⟨hr, by simp [Item.inBody]⟩
      cases left with
      | null => simpa only [kind_items] using hskip
      | mk t k ix nx =>
          cases k with
          | var dt off v =>
              simp only [kind_items, List.forall_mem_append]
              exact ⟨⟨hr, by simp [Item.inBody]⟩, store_body _⟩
          | pointer e v =>
              have hv := node_body v (n + allocs (node_items A L right n))
              simp only [kind_items, List.forall_mem_append]
              exact ⟨⟨⟨hr, by simp [Item.inBody]⟩, hv⟩, by simp [Item.inBody]⟩
          | _ => simpa only [kind_items] using hskip
  | .return_ value, n => by
      simp only [kind_items, List.forall_mem_append]
      refine ⟨?_, epilogue_body⟩
      split
      · rw [List.forall_mem_append]
        exact ⟨node_body value n, by simp [Item.inBody]⟩
      · simp [Item.inBody]
  | .if_ cond then_stmt else_stmt, n => by
      simp only [kind_items, List.forall_mem_append]
      refine ⟨⟨⟨⟨by simp [Item.inBody], cond_body cond _ _ _⟩, node_body then_stmt _⟩, ?_⟩,
        by simp [Item.inBody]⟩
      split
      · rw [List.forall_mem_append]
        exact ⟨by simp [Item.inBody], node_body else_stmt _⟩
      · simp
  | .while_ cond then_stmt _, n => by
      simp only [kind_items, List.forall_mem_append]
      exact ⟨⟨⟨by simp [Item.inBody], cond_body cond _ _ _⟩, node_body then_stmt _⟩,
        by simp [Item.inBody]⟩
  | .block body, n => by
      simp only [kind_items]
      exact block_body body n
  | .call fn args _, n => by
      have hall : ∀ i ∈ cut_items L.args args ++ args_items A L L.args args n, i.inBody := by
        rw [List.forall_mem_append]
        exact ⟨cut_body _ _, args_body L.args args n⟩
      have hone : ∀ i ∈ cut_items L.first args ++ (if args.isSome then
          args_items A L L.first args n ++ [.op .pop_rdi] else [.op .xor_rdi_rdi]), i.inBody := by
        rw [List.forall_mem_append]
        refine ⟨cut_body _ _, ?_⟩
        split
        · rw [List.forall_mem_append]
          exact ⟨args_body L.first args n, by simp [Item.inBody]⟩
        · simp [Item.inBody]
      simp only [kind_items]
      generalize cut_items L.args args ++ args_items A L L.args args n = all at hall ⊢
      generalize cut_items L.first args ++ (if args.isSome then
          args_items A L L.first args n ++ [.op .pop_rdi] else [.op .xor_rdi_rdi]) = one at hone ⊢
      split_ifs with h1 hc hc' h2 h3
      · simp only [List.forall_mem_append]
        exact ⟨⟨hall, by simp [Item.inBody]⟩, builtin_body _⟩
      · simp only [List.forall_mem_append]
        exact ⟨⟨⟨hall, pop_body _⟩, by simp [Item.inBody]⟩, builtin_body _⟩
      · simp [Item.inBody]
      · rw [List.forall_mem_append]
        exact ⟨hone, builtin_body _⟩
      · rw [List.forall_mem_append]
        exact ⟨hone, builtin_body _⟩
      · rw [List.forall_mem_append]
        refine ⟨hall, call_body ?_ _⟩
        unfold isBuiltin
        rw [not_or] at h2
        simp only [not_or]
        exact ⟨h1, h2.1, h2.2, h3⟩
  | .pointer _ value, n => by
      simp only [kind_items, List.forall_mem_append]
      exact ⟨node_body value n, by simp [Item.inBody]⟩
  | .str string, n => by simp [kind_items, Item.inBody]
  | .func .., n => by simp [kind_items, Item.inBody]
  | .gvar .., n => by simp [kind_items, Item.inBody]
  | .addr _, n => by simp [kind_items, Item.inBody]
  | .break_, n => by simp [kind_items, Item.inBody]
  | .continue_, n => by simp [kind_items, Item.inBody]
  | .arr_access _, n => by simp [kind_items, Item.inBody]
  | .mem_access .., n => by simp [kind_items, Item.inBody]
  | .preinc _, n => by simp [kind_items, Item.inBody]
  | .predec _, n => by simp [kind_items, Item.inBody]
  | .postinc _, n => by simp [kind_items, Item.inBody]
  | .postdec _, n => by simp [kind_items, Item.inBody]

end

end

theorem prologue_body (n : BitVec 32) : ∀ i ∈ prologue_items n, i.inBody := by
  unfold prologue_items
  split <;> simp [Item.inBody]

/-- The name of the function an entry of the global table stands for. -/
def Node.funcName : Node → Option Name
  | .mk _ (.func name _ _ _ _ _) _ _ => some name
  | _ => none

theorem entries_append : ∀ {xs : List Item} {p : Nat},
    entries p (xs ++ ys) = entries p xs ++ entries (p + size xs) ys := by
  intro xs
  induction xs with
  | nil => intro p; simp [entries]
  | cons i xs ih =>
      intro p
      cases i <;> simp [entries, ih, Item.size, Nat.add_assoc]

/-- No function begins in the code of a body. -/
theorem entries_body : ∀ {xs : List Item} {p : Nat}, (∀ i ∈ xs, i.inBody) → entries p xs = [] := by
  intro xs
  induction xs with
  | nil => intro p _; rfl
  | cons i xs ih =>
      intro p h
      have hrest := fun q => ih (p := q) fun j hj => h j (List.mem_cons_of_mem _ hj)
      cases i with
      | func name => exact absurd (h _ (List.mem_cons_self ..)) not_false
      | _ => exact hrest _

section

variable (A : Addresses)

/-- An entry of the global table begins one function, where its code begins. -/
theorem entry_entries (q : Node) (n p : Nat) : entries p (entry_items A .code q n) =
    (q.funcName.map fun name => (⟨name, p⟩ : FuncSym)).toList := by
  cases q with
  | null => rfl
  | mk t k ix nx =>
      cases k with
      | func name args body ret localvarbyte argcount =>
          simp only [entry_items, entries_append, entries_body (prologue_body _),
            entries_body (node_body A .code body n), entries_body epilogue_body, List.append_nil]
          rfl
      | _ => rfl

theorem table_append (qs : List Node) : ∀ (ps : List Node) (n : Nat),
    table_items A .code (ps ++ qs) n = table_items A .code ps n ++
      table_items A .code qs (n + allocs (table_items A .code ps n)) := by
  intro ps
  induction ps with
  | nil => intro n; rfl
  | cons p ps ih =>
      intro n
      simp only [List.cons_append, table_items, ih, List.append_assoc, allocs_append, Nat.add_assoc]

/-- A function of the table has a name there, and begins before the end of the table's code. -/
theorem table_entry : ∀ (ps : List Node) (n p : Nat) (e : FuncSym),
    e ∈ entries p (table_items A .code ps n) →
    (∃ q ∈ ps, q.funcName = some e.name) ∧ e.offset < p + size (table_items A .code ps n) := by
  intro ps
  induction ps with
  | nil => intro n p e he; cases he
  | cons q ps ih =>
      intro n p e he
      simp only [table_items, entries_append, List.mem_append] at he
      rcases he with he | he
      · rw [entry_entries] at he
        cases hq : q.funcName with
        | none => rw [hq] at he; cases he
        | some name =>
            rw [hq] at he
            obtain rfl := List.mem_singleton.mp he
            refine ⟨⟨q, List.mem_cons_self .., hq⟩, ?_⟩
            have hsize : 4 ≤ size (entry_items A .code q n) := by
              cases q with
              | null => cases hq
              | mk t k ix nx =>
                  cases k with
                  | func name' args body ret localvarbyte argcount =>
                      have := prologue_size (BitVec.ofInt 32 localvarbyte + 32)
                      simp only [entry_items, size_append]
                      omega
                  | _ => cases hq
            simp only [table_items, size_append]
            omega
      · obtain ⟨⟨r, hr, hname⟩, hlt⟩ := ih _ _ _ he
        simp only [table_items, size_append]
        exact ⟨⟨r, List.mem_cons_of_mem _ hr, hname⟩, by omega⟩

/-- Every name of the table begins a function. -/
theorem entry_of_name : ∀ (ps : List Node) (n p : Nat), (∃ q ∈ ps, q.funcName = some f) →
    ∃ e ∈ entries p (table_items A .code ps n), e.name = f := by
  intro ps
  induction ps with
  | nil => rintro n p ⟨q, hq, -⟩; cases hq
  | cons q ps ih =>
      rintro n p ⟨r, hr, hname⟩
      simp only [table_items, entries_append, List.mem_append]
      rcases List.mem_cons.mp hr with rfl | hr
      · refine ⟨⟨f, p⟩, Or.inl ?_, rfl⟩
        rw [entry_entries, hname]
        exact List.mem_singleton_self _
      · obtain ⟨e, he, hf⟩ := ih _ _ ⟨r, hr, hname⟩
        exact ⟨e, Or.inr he, hf⟩

end

/-! ### Where calls lead -/

section

variable {A : Addresses} {gt : List Node} (mod_name : Option Name) (mod_type : BitVec 32) (g : Gen)

/-- A call of a function in the table stands in the binary. -/
theorem call_assembled (h : Roomy (listing A gt)) (hlist : listing A gt = ys ++ .call f :: zs)
    (hf : (module_code A gt g).find_func_offset f ≠ -1) :
    RelAt (codegen_x86_emit A gt mod_name mod_type g).1 (64 + size ys) .call
      ((moduleSymbols A gt g).func f) := by
  obtain ⟨hF, hG, hA, -⟩ := module_spec mod_name mod_type g h
  have hrooms := h.rooms
  rw [hlist] at hrooms
  obtain ⟨hr1, hr2⟩ := rooms_append hrooms
  have hT := (reset_tracks g).items hr1
  have htidy := (reset_tidy g).grown (emit_items_grown ys g.reset) hT.lost
  have hlen : (emit_items ys g.reset).code_len = 64 + size ys := items_size (reset_tracks g) hr1
  rw [hlist, emit_items_append, emit_items_cons] at hG hA
  rw [← hlen]
  exact item_assembled hF htidy hT hr2.1 ((emit_items_grown zs _).trans hG)
    ((emit_items_appended zs _).trans hA)
    ⟨nofun, nofun, fun name heq => by cases heq; exact hf, nofun⟩

/-- All calls of `f` in a listing lead to `t`. -/
def CallsReach (bin : Store) (len : Nat) (xs : List Item) (f : Name) (t : Nat) : Prop :=
  ∀ ys zs, xs = ys ++ .call f :: zs → CallsTo bin len (64 + size ys) t

variable {pre post : List Node} {d : Node}

/-- The functions of a program around one of its entries. -/
theorem listing_entries (hd : d.funcName = some f) :
    entries 64 (listing A (pre ++ d :: post)) = entries 64 (table_items A .code pre 1) ++
      ⟨f, 64 + size (table_items A .code pre 1)⟩ ::
        entries (64 + size (table_items A .code pre 1) +
          size (entry_items A .code d (1 + allocs (table_items A .code pre 1))))
          (table_items A .code post (1 + allocs (table_items A .code pre 1) +
            allocs (entry_items A .code d (1 + allocs (table_items A .code pre 1))))) := by
  simp only [listing, table_append, table_items, entries_append, entry_entries, hd]
  rfl

/-- The place calls of `f` lead to: the definition `d`, or an earlier entry of that name. -/
theorem func_place (h : Roomy (listing A (pre ++ d :: post))) (hd : d.funcName = some f) :
    (module_code A (pre ++ d :: post) g).find_func_offset f ≠ -1 ∧
      (moduleSymbols A (pre ++ d :: post) g).func f ≤ 64 + size (table_items A .code pre 1) ∧
      ((moduleSymbols A (pre ++ d :: post) g).func f = 64 + size (table_items A .code pre 1) ↔
        ∀ q ∈ pre, q.funcName ≠ some f) := by
  have hentries := @listing_entries f A pre post d hd
  have hmem : (⟨f, 64 + size (table_items A .code pre 1)⟩ : FuncSym) ∈
      entries 64 (listing A (pre ++ d :: post)) := by
    rw [hentries]
    exact List.mem_append_right _ (List.mem_cons_self ..)
  obtain ⟨hfind, hne⟩ := module_func g h hmem
  rw [hentries, List.find?_append] at hfind
  refine ⟨hne, ?_⟩
  cases hpre : (entries 64 (table_items A .code pre 1)).find? fun e => e.name = f with
  | some e =>
      -- an earlier entry of the name is found first
      rw [hpre, Option.some_or] at hfind
      obtain ⟨⟨q, hq, hname⟩, hlt⟩ := table_entry A pre 1 64 e (List.mem_of_find?_eq_some hpre)
      have hef : e.name = f := by simpa using List.find?_some hpre
      have hoff : e.offset = (moduleSymbols A (pre ++ d :: post) g).func f := by
        rw [Option.some.inj hfind]
      rw [← hoff]
      refine ⟨Nat.le_of_lt hlt, fun heq => absurd heq (Nat.ne_of_lt hlt), fun hno => ?_⟩
      exact absurd (hname.trans (congrArg some hef)) (hno q hq)
  | none =>
      rw [hpre, Option.none_or, List.find?_cons_of_pos (by simp)] at hfind
      have hoff : 64 + size (table_items A .code pre 1)
          = (moduleSymbols A (pre ++ d :: post) g).func f :=
        congrArg FuncSym.offset (Option.some.inj hfind)
      refine ⟨Nat.le_of_eq hoff.symm, fun _ q hq hname => ?_, fun _ => hoff.symm⟩
      obtain ⟨e, he, hef⟩ := entry_of_name A pre 1 64 ⟨q, hq, hname⟩
      exact absurd (by simpa using hef) (List.find?_eq_none.mp hpre e he)

/-- No call instruction goes by the name of a builtin. -/
theorem table_calls : ∀ (ps : List Node) (n : Nat), .call f ∈ table_items A .code ps n →
    ¬ isBuiltin f := by
  intro ps
  induction ps with
  | nil => intro n h; cases h
  | cons p ps ih =>
      intro n h
      simp only [table_items, List.mem_append] at h
      refine h.elim (fun h => ?_) (ih _)
      cases p with
      | null => cases h
      | mk t k ix nx =>
          cases k with
          | func name args body ret localvarbyte argcount =>
              simp only [entry_items, List.mem_append, List.mem_singleton, reduceCtorEq, false_or] at h
              rcases h with (h | h) | h
              · exact prologue_body _ _ h
              · exact node_body A .code body n _ h
              · exact epilogue_body _ h
          | _ => cases h

/-- Every call of `f` leads to one place. -/
theorem call_leads (h : Roomy (listing A (pre ++ d :: post))) (hd : d.funcName = some f)
    (hlist : listing A (pre ++ d :: post) = ys ++ .call f :: zs) :
    CallsTo (codegen_x86_emit A (pre ++ d :: post) mod_name mod_type g).1
      (codegen_x86_emit A (pre ++ d :: post) mod_name mod_type g).2.1 (64 + size ys)
      ((moduleSymbols A (pre ++ d :: post) g).func f) := by
  obtain ⟨hne, hle, -⟩ := func_place g h hd
  have hend := module_end mod_name mod_type g h
  have hmax := binary_len A (pre ++ d :: post) mod_name mod_type g
  have hpre : size (table_items A .code pre 1) ≤ size (listing A (pre ++ d :: post)) := by
    simp only [listing, table_append, size_append]
    omega
  unfold CODE_BUF_SIZE at hmax
  refine (call_assembled mod_name mod_type g h hlist hne).callsTo ?_ (by omega) (by omega)
  rw [hlist, size_append, size_cons] at hend
  simp only [Item.size] at hend
  omega

/-- Calls of `f` that reach `d` find no entry of the name before it. -/
theorem reach_first (h : Roomy (listing A (pre ++ d :: post))) (hd : d.funcName = some f)
    (hmem : .call f ∈ listing A (pre ++ d :: post))
    (hreach : CallsReach (codegen_x86_emit A (pre ++ d :: post) mod_name mod_type g).1
      (codegen_x86_emit A (pre ++ d :: post) mod_name mod_type g).2.1
      (listing A (pre ++ d :: post)) f (64 + size (table_items A .code pre 1))) :
    ∀ q ∈ pre, q.funcName ≠ some f := by
  obtain ⟨-, hle, hiff⟩ := func_place g h hd
  have hend := module_end mod_name mod_type g h
  have hmax := binary_len A (pre ++ d :: post) mod_name mod_type g
  have hpre : size (table_items A .code pre 1) ≤ size (listing A (pre ++ d :: post)) := by
    simp only [listing, table_append, size_append]
    omega
  unfold CODE_BUF_SIZE at hmax
  obtain ⟨ys, zs, hlist⟩ := List.append_of_mem hmem
  exact hiff.mp ((call_leads mod_name mod_type g h hd hlist).unique (hreach ys zs hlist) (by omega)
    (by omega) (by omega))

end

/-- **Calls and definitions.**  In a program that fits into the tables, the calls of `f` lead to
the code of its entry `d` if and only if none is made or `f` has no entry before `d`; of a
function with a builtin's name no call is made. -/
theorem calls_reach (A : Addresses) (pre post : List Node) (d : Node) (f : Name)
    (hd : d.funcName = some f) (h : Roomy (listing A (pre ++ d :: post)))
    (mod_name : Option Name) (mod_type : BitVec 32) (g : Gen) :
    (CallsReach (codegen_x86_emit A (pre ++ d :: post) mod_name mod_type g).1
        (codegen_x86_emit A (pre ++ d :: post) mod_name mod_type g).2.1
        (listing A (pre ++ d :: post)) f (64 + size (table_items A .code pre 1)) ↔
      .call f ∉ listing A (pre ++ d :: post) ∨ ∀ q ∈ pre, q.funcName ≠ some f) ∧
    (isBuiltin f → .call f ∉ listing A (pre ++ d :: post)) := by
  refine ⟨⟨fun hreach => ?_, fun hor ys zs hlist => ?_⟩, fun hb hmem => table_calls _ _ hmem hb⟩
  · rw [or_iff_not_imp_left, not_not]
    exact fun hmem => reach_first mod_name mod_type g h hd hmem hreach
  · have hmem : .call f ∈ listing A (pre ++ d :: post) := by
      rw [hlist]
      exact List.mem_append_right _ (List.mem_cons_self ..)
    rw [← (func_place g h hd).2.2.mpr (hor.resolve_left (not_not_intro hmem))]
    exact call_leads mod_name mod_type g h hd hlist

/-- `void f() {}`. -/
def emptyF : Node := .mk 0 (.func ['f'] .null (.mk 0 (.block .null) .null .null) K_VOID 0 0) .null .null

/-- `void main() { f(); }`. -/
def callingMain : Node :=
  .mk 0 (.func ['m', 'a', 'i', 'n'] .null
    (.mk 0 (.block (.mk 0 (.call ['f'] .null 0) .null .null)) .null .null) K_VOID 0 0) .null .null

theorem callingMain_items (n : Nat) : entry_items .zero .code callingMain n =
    [.func ['m', 'a', 'i', 'n'], .op .push_rbp, .op .mov_rsp_rbp, .ins ⟨.sub_rsp, 32⟩, .visit, .visit,
      .call ['f'], .op .push_rax, .op .leave, .op .ret] := by
  have hkind := call_kind (f := ['f']) .zero .code (by unfold isBuiltin; decide) 0 n
  have hblock : kind_items .zero .code (.block (.mk 0 (.call ['f'] .null 0) .null .null)) n
      = [.visit, .call ['f'], .op .push_rax] := by
    show [.visit] ++ kind_items .zero .code (.call ['f'] .null 0) n ++ [] = _
    rw [hkind]
    rfl
  simp [callingMain, entry_items, prologue_items, frameBytes, node_items, epilogue_items, hblock]

/-- The code of a function `f` without statements. -/
def emptyItems : List Item :=
  [.func ['f'], .op .push_rbp, .op .mov_rsp_rbp, .ins ⟨.sub_rsp, 32⟩]

theorem emptyF_items (n : Nat) : entry_items .zero .code emptyF n =
    emptyItems ++ [.visit, .op .leave, .op .ret] := by
  simp [emptyF, emptyItems, entry_items, prologue_items, frameBytes, node_items, kind_items, block_items,
    epilogue_items]

/-- The calls of `void f() {} void main() { f(); }`. -/
theorem calls_reach_first :
    (CallsReach (codegen_x86_emit .zero ([] ++ emptyF :: [callingMain]) none 0 .zero).1
        (codegen_x86_emit .zero ([] ++ emptyF :: [callingMain]) none 0 .zero).2.1
        (listing .zero ([] ++ emptyF :: [callingMain])) ['f']
        (64 + size (table_items .zero .code [] 1)) ↔
      .call ['f'] ∉ listing .zero ([] ++ emptyF :: [callingMain]) ∨
        ∀ q ∈ ([] : List Node), q.funcName ≠ some ['f']) ∧
    (isBuiltin ['f'] → .call ['f'] ∉ listing .zero ([] ++ emptyF :: [callingMain])) :=
  calls_reach .zero [] [callingMain] emptyF ['f'] rfl
    (by
      simp only [listing, List.nil_append, table_items, emptyF_items, callingMain_items]
      exact ⟨by decide, by decide⟩)
    none 0 .zero

/-- `void f();`. -/
def protoF : Node := .mk 0 (.func ['f'] .null .null K_VOID 0 0) .null .null

theorem protoF_items (n : Nat) : entry_items .zero .code protoF n =
    emptyItems ++ [.op .leave, .op .ret] := by
  simp [protoF, emptyItems, entry_items, prologue_items, frameBytes, node_items, epilogue_items]

/-- The function has a body. -/
def Node.hasBody : Node → Bool
  | .mk _ (.func _ _ body _ _ _) _ _ => body.isSome
  | _ => false

/-- In `void f(); void f() {} void main() { f(); }` the call does not reach the definition. -/
theorem calls_miss : ¬ ∀ (A : Addresses) (pre post : List Node) (d : Node) (f : Name),
    d.funcName = some f → d.hasBody = true →
    (∀ q ∈ pre ++ post, q.funcName = some f → q.hasBody = false) → ¬ isBuiltin f →
    Roomy (listing A (pre ++ d :: post)) →
    CallsReach (codegen_x86_emit A (pre ++ d :: post) none 0 .zero).1
      (codegen_x86_emit A (pre ++ d :: post) none 0 .zero).2.1
      (listing A (pre ++ d :: post)) f (64 + size (table_items A .code pre 1)) := by
  intro hall
  have hlist : listing .zero ([protoF] ++ emptyF :: [callingMain]) =
      emptyItems ++ [.op .leave, .op .ret] ++ (emptyItems ++ [.visit, .op .leave, .op .ret] ++
        [.func ['m', 'a', 'i', 'n'], .op .push_rbp, .op .mov_rsp_rbp, .ins ⟨.sub_rsp, 32⟩, .visit,
          .visit, .call ['f'], .op .push_rax, .op .leave, .op .ret]) := by
    simp only [listing, List.singleton_append, table_items, emptyF_items, callingMain_items, protoF_items,
      List.append_nil]
  have hroomy : Roomy (listing .zero ([protoF] ++ emptyF :: [callingMain])) := by
    rw [hlist]
    exact ⟨by decide, by decide⟩
  have hbodies : ∀ q ∈ [protoF] ++ [callingMain], q.funcName = some ['f'] → q.hasBody = false := by
    simp [protoF, callingMain, Node.funcName, Node.hasBody, Node.isSome]
  have hreach := hall .zero [protoF] [callingMain] emptyF ['f'] rfl rfl hbodies
    (by unfold isBuiltin; decide) hroomy
  have hmem : .call ['f'] ∈ listing .zero ([protoF] ++ emptyF :: [callingMain]) := by
    rw [hlist]
    simp
  exact reach_first none 0 .zero hroomy rfl hmem hreach protoF (List.mem_singleton_self _) rfl

end Eke
