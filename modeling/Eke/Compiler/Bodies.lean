/-
Bodies of functions in the code of a program.

The code between the prologue of a function and its return has a simple shape: a `leave` is followed
by its `ret`, the load of a builtin's address by the call of it, and nothing else touches the frame
pointer.  Jumps stay in bodies, and calls lead to the first instruction of a function.
-/
import Eke.Compiler.Header
import Eke.Compiler.Balance

namespace Eke

open Gen Store X86

variable {bin : Store} {len p : Nat} {Y : Symbols} {xs ys : List Item} {A : Addresses}

/-! ### The shape of the code of a function -/

/-- An item between the prologue of a function and its return. -/
def Item.inner : Item → Bool
  | .ins i => i.op.plain || i.op == .add_rsp || i.op == .sub_rsp
  | .jump .jmp _ => true
  | .jump (.jcc _) _ => true
  | .jump _ _ => false
  | .test (.jcc _) _ => true
  | .test _ _ => false
  | .func _ => false
  | _ => true

/-- Code in which every return is one with its `leave`, and every call of a builtin one with the
load of its address. -/
inductive Inner : List Item → Prop
  | nil : Inner []
  | item {i : Item} {xs : List Item} : i.inner = true → Inner xs → Inner (i :: xs)
  | leave {xs : List Item} : Inner xs → Inner (.op .leave :: .op .ret :: xs)
  | builtin {a : Nat} {xs : List Item} : Inner xs → Inner (.ins ⟨.movabs_rbx, a⟩ :: .op .call_rbx :: xs)

theorem Inner.append (hx : Inner xs) (hy : Inner ys) : Inner (xs ++ ys) := by
  induction hx with
  | nil => exact hy
  | item hi _ ih => exact .item hi ih
  | leave _ ih => exact .leave ih
  | builtin _ ih => exact .builtin ih

theorem Inner.of_all (h : xs.all Item.inner = true) : Inner xs := by
  induction xs with
  | nil => exact .nil
  | cons i xs ih =>
      obtain ⟨hi, hxs⟩ := Bool.and_eq_true_iff.mp h
      exact .item hi (ih hxs)

theorem builtin_inner (a : BitVec 64) : Inner (builtin_items a) := .builtin (.of_all rfl)

theorem cut_inner (n : Nat) (args : Node) : Inner (cut_items n args) := by
  unfold cut_items
  split <;> exact .of_all rfl

theorem load_inner (o : Int) : Inner (load_items o) := by
  unfold load_items
  split <;> exact .of_all rfl

theorem store_inner (o : Int) : Inner (store_items o) := by
  unfold store_items
  split <;> exact .of_all rfl

theorem bin_inner (op : Int) : Inner (bin_items op) := by
  unfold bin_items
  split_ifs <;> exact .of_all rfl

theorem pop_inner (n : Nat) : Inner (pop_items n) := by
  have hone : ∀ (P : Prop) [Decidable P] (o : Op), o.plain = true → Inner (if P then [.op o] else []) := by
    intro P _ o ho
    split
    · exact .item (by simp [Item.inner, ho]) .nil
    · exact .nil
  exact (((((Inner.of_all rfl).append (hone _ _ rfl)).append (hone _ _ rfl)).append (hone _ _ rfl)).append
    (hone _ _ rfl)).append (hone _ _ rfl)

theorem call_inner (f : Name) (n : Nat) : Inner (call_items f n) := by
  unfold call_items
  refine .item rfl (Inner.append ?_ (.of_all rfl))
  split <;> exact .of_all rfl

theorem epilogue_inner : Inner epilogue_items := .leave .nil

variable (A)

theorem call_kind_inner {args : Node} (hargs : ∀ m k, Inner (args_items A .code m args k)) (f : Name)
    (n : Int) (k : Nat) : Inner (kind_items A .code (.call f args n) k) := by
  have hall := (cut_inner Limits.code.args args).append (hargs Limits.code.args k)
  have hone : ∀ a, Inner (cut_items Limits.code.first args ++
      (if args.isSome then args_items A .code Limits.code.first args k ++ [.op .pop_rdi]
        else [.op .xor_rdi_rdi]) ++ builtin_items a) := by
    intro a
    refine ((cut_inner _ args).append ?_).append (builtin_inner a)
    split
    · exact (hargs _ k).append (.of_all rfl)
    · exact .of_all rfl
  unfold kind_items
  simp only
  split
  · split
    · exact (hall.append (.of_all rfl)).append (builtin_inner _)
    · split
      · exact ((hall.append (pop_inner _)).append (.of_all rfl)).append (builtin_inner _)
      · exact .of_all rfl
  split
  · exact hone _
  split
  · exact hone _
  · exact hall.append (call_inner f _)

mutual

theorem node_inner : ∀ (n : Node) (k : Nat), Inner (node_items A .code n k) := by
  intro n k
  cases n with
  | null => exact .nil
  | mk t kind ix nx => exact .item rfl (kind_inner kind k)

theorem cond_inner : ∀ (c : Node) (l : Nat) (b : Bool) (k : Nat), Inner (cond_items A .code c l b k) := by
  intro c l b k
  cases c with
  | null => exact .nil
  | mk t kind ix nx =>
      have htest : Inner ([.visit] ++ kind_items A .code kind k ++
          [.op .pop_rax, .op .test_rax_rax, .test (.jcc (if b then .ne else .e)) l]) :=
        (Inner.item rfl (kind_inner kind k)).append (.of_all rfl)
      cases kind with
      | bin op left right =>
          have hpair := (Inner.item (i := .visit) rfl (node_inner left k)).append
            (node_inner right (k + allocs (node_items A .code left k)))
          exact hpair.append (.of_all rfl)
      | _ => exact htest

theorem block_inner : ∀ (n : Node) (k : Nat), Inner (block_items A .code n k) := by
  intro n k
  cases n with
  | null => exact .nil
  | mk t kind ix nx =>
      cases kind with
      | var dt off value =>
          have hd : Inner (if value.isSome then node_items A .code value k ++ store_items off else []) := by
            split
            · exact (node_inner value k).append (store_inner off)
            · exact .nil
          exact (Inner.item (i := .visit) rfl hd).append (block_inner nx _)
      | _ => exact (Inner.item (i := .visit) rfl (kind_inner _ k)).append (block_inner nx _)

theorem args_inner : ∀ (m : Nat) (n : Node) (k : Nat), Inner (args_items A .code m n k) := by
  intro m n k
  cases n with
  | null => exact .nil
  | mk t kind ix nx =>
      cases m with
      | zero => exact .nil
      | succ m =>
          have hvisit : Inner [.visit] := .of_all rfl
          exact ((args_inner m nx k).append hvisit).append (kind_inner kind _)

theorem kind_inner : ∀ (kind : Kind) (k : Nat), Inner (kind_items A .code kind k) := by
  intro kind k
  cases kind with
  | int v => exact .of_all rfl
  | elem e => exact .of_all rfl
  | var dt off v => exact load_inner off
  | str s => exact .of_all rfl
  | bin op left right =>
      have hpair := (node_inner left k).append (node_inner right (k + allocs (node_items A .code left k)))
      exact ((hpair.append (.of_all rfl)).append (bin_inner op)).append (.of_all rfl)
  | assign off op left right =>
      have hr := node_inner right k
      cases left with
      | null => exact hr.append (.of_all rfl)
      | mk t kind ix nx =>
          cases kind with
          | var dt o v => exact (hr.append (.of_all rfl)).append (store_inner _)
          | pointer e value =>
              exact ((hr.append (.of_all rfl)).append (node_inner value _)).append (.of_all rfl)
          | _ => exact hr.append (.of_all rfl)
  | return_ value =>
      refine Inner.append ?_ epilogue_inner
      split
      · exact (node_inner value k).append (.of_all rfl)
      · exact .of_all rfl
  | if_ c t e =>
      have hc := cond_inner c (if e.isSome then k else k + 1) false (k + 2)
      have ht := node_inner t
        (k + 2 + allocs (cond_items A .code c (if e.isSome then k else k + 1) false (k + 2)))
      refine ((((Inner.of_all rfl).append hc).append ht).append ?_).append (.of_all rfl)
      split
      · exact (Inner.of_all rfl).append (node_inner e _)
      · exact .nil
  | while_ c t f =>
      have hc := cond_inner c (k + 1) false (k + 2)
      have ht := node_inner t (k + 2 + allocs (cond_items A .code c (k + 1) false (k + 2)))
      exact (((Inner.of_all rfl).append hc).append ht).append (.of_all rfl)
  | block b => exact block_inner b k
  | call f args n => exact call_kind_inner A (fun m k => args_inner m args k) f n k
  | pointer e value => exact (node_inner value k).append (.of_all rfl)
  | _ => exact .of_all rfl

end

variable {A}

/-! ### Where control can be -/

section

variable (bin : Store) (len : Nat) (Y : Symbols) (T : Nat → Prop) (C : Name → Prop)

/-- A place in the body of a function; the labels its code jumps to are in `T`, the functions it
calls in `C`. -/
def InBody (p : Nat) : Prop := ∃ ys, Inner ys ∧ (∀ l ∈ targets ys, T l) ∧ (∀ f, .call f ∈ ys → C f) ∧
  Code bin len Y p (ys ++ epilogue_items)

/-- A function starts. -/
structure Entrance (p : Nat) : Prop where
  code : Code bin len Y p [.op .push_rbp, .op .mov_rsp_rbp]
  body : InBody bin len Y T C (p + 4)

/-- Jumps stay in bodies, and calls lead to functions. -/
structure Wired : Prop where
  small : len < 2 ^ 31
  labels : ∀ l, T l → InBody bin len Y T C (Y.label l)
  calls : ∀ f, C f → Entrance bin len Y T C (Y.func f)

/-- What stands at a place in a body. -/
inductive Does (p : Nat) : Prop
  | on (i : Instr) : At bin p i → p + i.size ≤ len → i.op.plain = true ∨ i.op = .add_rsp ∨ i.op = .sub_rsp →
      InBody bin len Y T C (p + i.size) → Does p
  | address (i : Instr) : At bin p i → p + i.size ≤ len → i.op = .movabs_rbx → Does p
  | jump (t : Nat) : RelAt bin p .jmp t → p + 5 ≤ len → InBody bin len Y T C t → Does p
  | branch (k : Cond) (t : Nat) : RelAt bin p (.jcc k) t → p + 6 ≤ len → InBody bin len Y T C t →
      InBody bin len Y T C (p + 6) → Does p
  | call (t : Nat) : RelAt bin p .call t → p + 5 ≤ len → Entrance bin len Y T C t →
      InBody bin len Y T C (p + 5) → Does p
  | leave : Code bin len Y p [.op .leave, .op .ret] → Does p

end

variable {T : Nat → Prop} {C : Name → Prop}

theorem targets_cons_sub {i : Item} (h : ∀ l ∈ targets (i :: xs), T l) : ∀ l ∈ targets xs, T l := by
  intro l hl
  refine h l ?_
  rw [← List.singleton_append, targets_append]
  exact List.mem_append_right _ hl

theorem InBody.inside (h : InBody bin len Y T C p) : p ≤ len := by
  obtain ⟨ys, -, -, -, hc⟩ := h
  exact Nat.le_trans (Nat.le_add_right _ _) hc.inside

theorem InBody.does (hw : Wired bin len Y T C) (h : InBody bin len Y T C p) : Does bin len Y T C p := by
  obtain ⟨ys, hys, ht, hcalls, hc⟩ := h
  induction hys generalizing p with
  | nil => exact .leave hc
  | leave _ _ => exact .leave (show Code bin len Y p ([.op .leave, .op .ret] ++ _) from hc).left
  | builtin _ _ =>
      obtain ⟨hat, hlen, -⟩ := hc.at
      exact .address _ hat hlen rfl
  | @item i xs hi hxs ih =>
      have htail := hc.tail
      have ht' := targets_cons_sub ht
      have hcalls' : ∀ f, .call f ∈ xs → C f := fun f hf => hcalls f (List.mem_cons_of_mem _ hf)
      have hrest : InBody bin len Y T C (p + i.size) := ⟨xs, hxs, ht', hcalls', htail⟩
      have hskip : i.size = 0 → Does bin len Y T C p := by
        intro hzero
        rw [hzero] at htail
        exact ih ht' hcalls' htail
      have hin := hc.inside
      rw [List.cons_append, size_cons] at hin
      have hfit : p + i.size ≤ len := by omega
      have hlabel : ∀ l, targets [i] = [l] → InBody bin len Y T C (Y.label l) := by
        intro l hl
        refine hw.labels l (ht l ?_)
        rw [← List.singleton_append, targets_append, hl]
        exact List.mem_append_left _ (List.mem_singleton_self l)
      cases i with
      | ins i =>
          obtain ⟨op, imm⟩ := i
          obtain ⟨hat, hlen, hsize⟩ := hc.at
          rw [hsize] at hrest
          rcases Bool.or_eq_true_iff.mp hi with hi | hi
          · rcases Bool.or_eq_true_iff.mp hi with hi | hi
            · exact .on _ hat hlen (.inl hi) hrest
            · exact .on _ hat hlen (.inr (.inl (eq_of_beq hi))) hrest
          · exact .on _ hat hlen (.inr (.inr (eq_of_beq hi))) hrest
      | jump op l =>
          have hl := hlabel l rfl
          cases op with
          | jmp => exact .jump _ hc.here.1 hfit hl
          | jcc k =>
              have hsize : Item.size (.jump (.jcc k) l) = 6 := by cases k <;> rfl
              rw [hsize] at hfit hrest
              exact .branch k _ hc.here.1 hfit hl hrest
          | _ => cases hi
      | test op l =>
          have hl := hlabel l rfl
          cases op with
          | jcc k =>
              have hsize : Item.size (.test (.jcc k) l) = 6 := by cases k <;> rfl
              rw [hsize] at hfit hrest
              exact .branch k _ hc.here.1 hfit hl hrest
          | _ => cases hi
      | call f => exact .call _ hc.here.1 hfit (hw.calls f (hcalls f (List.mem_cons_self ..))) hrest
      | lea t =>
          obtain ⟨q, hat, -⟩ := hc.here.1
          exact .on _ (hat.at rfl) hfit (.inl rfl) hrest
      | func f => cases hi
      | alloc => exact hskip rfl
      | mark l => exact hskip rfl
      | visit => exact hskip rfl
      | drop => exact hskip rfl
      | skip => exact hskip rfl
      | cut => exact hskip rfl

/-! ### The functions of a program -/

/-- The labels placed in a body are places in it. -/
theorem marks_inBody (hys : Inner ys) (ht : ∀ l ∈ targets ys, T l) (hcalls : ∀ f, .call f ∈ ys → C f)
    (hc : Code bin len Y p (ys ++ epilogue_items)) : ∀ l ∈ marks ys, InBody bin len Y T C (Y.label l) := by
  induction hys generalizing p with
  | nil => exact fun l hl => absurd hl List.not_mem_nil
  | leave _ ih =>
      exact ih (targets_cons_sub (targets_cons_sub ht))
        (fun f hf => hcalls f (List.mem_cons_of_mem _ (List.mem_cons_of_mem _ hf))) hc.tail.tail
  | builtin _ ih =>
      exact ih (targets_cons_sub (targets_cons_sub ht))
        (fun f hf => hcalls f (List.mem_cons_of_mem _ (List.mem_cons_of_mem _ hf))) hc.tail.tail
  | @item i xs hi hxs ih =>
      have ht' := targets_cons_sub ht
      have hcalls' : ∀ f, .call f ∈ xs → C f := fun f hf => hcalls f (List.mem_cons_of_mem _ hf)
      have hrest := ih ht' hcalls' hc.tail
      intro l hl
      cases i with
      | mark k =>
          rcases List.mem_cons.mp hl with rfl | hl
          · have hlab : Y.label l = p := hc.here.1
            rw [hlab]
            exact ⟨_, .item hi hxs, ht, hcalls, hc⟩
          · exact hrest l hl
      | _ => exact hrest l hl

theorem prologue_split (v : BitVec 32) : ∃ ys, Inner ys ∧
    prologue_items v = [.op .push_rbp, .op .mov_rsp_rbp] ++ ys := by
  refine ⟨_, ?_, rfl⟩
  split
  · exact .of_all rfl
  · exact .nil

/-- An entry of the global table: its function starts where it stands, and its labels are in its body. -/
theorem entry_wired (r : Node) (n : Nat) (ht : ∀ l ∈ targets (entry_items A .code r n), T l)
    (hcalls : ∀ f, .call f ∈ entry_items A .code r n → C f)
    (hc : Code bin len Y p (entry_items A .code r n)) :
    (∀ l ∈ marks (entry_items A .code r n), InBody bin len Y T C (Y.label l)) ∧
      ∀ e ∈ entries p (entry_items A .code r n), Entrance bin len Y T C e.offset := by
  rw [entry_entries]
  cases r with
  | null => exact ⟨fun l hl => absurd hl List.not_mem_nil, fun e he => absurd he List.not_mem_nil⟩
  | mk t kind ix nx =>
      cases kind with
      | func name args body ret localvarbyte argcount =>
          obtain ⟨zs, hzs, hpro⟩ := prologue_split (BitVec.ofInt 32 localvarbyte + 32)
          have hshape :
              entry_items A .code (.mk t (.func name args body ret localvarbyte argcount) ix nx) n =
              [.func name, .op .push_rbp, .op .mov_rsp_rbp] ++
                ((zs ++ node_items A .code body n) ++ epilogue_items) := by
            simp only [entry_items, hpro, List.append_assoc, List.cons_append, List.nil_append]
          rw [hshape] at ht hcalls hc ⊢
          rw [targets_append, targets_append] at ht
          have hinner := hzs.append (node_inner A body n)
          have ht' : ∀ l ∈ targets (zs ++ node_items A .code body n), T l :=
            fun l hl => ht l (List.mem_append_right _ (List.mem_append_left _ hl))
          have hcalls' : ∀ f, .call f ∈ zs ++ node_items A .code body n → C f :=
            fun f hf => hcalls f (List.mem_append_right _ (List.mem_append_left _ hf))
          have hbody : Code bin len Y (p + 4) (zs ++ node_items A .code body n ++ epilogue_items) :=
            hc.right
          have hpush : Code bin len Y p [.op .push_rbp, .op .mov_rsp_rbp] := hc.left.tail
          constructor
          · intro l hl
            rw [marks_append, marks_append] at hl
            rcases List.mem_append.mp hl with hl | hl
            · exact absurd hl List.not_mem_nil
            · rcases List.mem_append.mp hl with hl | hl
              · exact marks_inBody hinner ht' hcalls' hbody l hl
              · exact absurd hl List.not_mem_nil
          · intro e he
            obtain rfl := List.mem_singleton.mp he
            exact ⟨hpush, _, hinner, ht', hcalls', hbody⟩
      | _ => exact ⟨fun l hl => absurd hl List.not_mem_nil, fun e he => absurd he List.not_mem_nil⟩

theorem table_wired : ∀ (ps : List Node) (n p : Nat), (∀ l ∈ targets (table_items A .code ps n), T l) →
    (∀ f, .call f ∈ table_items A .code ps n → C f) → Code bin len Y p (table_items A .code ps n) →
    (∀ l ∈ marks (table_items A .code ps n), InBody bin len Y T C (Y.label l)) ∧
      ∀ e ∈ entries p (table_items A .code ps n), Entrance bin len Y T C e.offset := by
  intro ps
  induction ps with
  | nil =>
      intro n p _ _ _
      exact ⟨fun l hl => absurd hl List.not_mem_nil, fun e he => absurd he List.not_mem_nil⟩
  | cons r ps ih =>
      intro n p ht hcalls hc
      simp only [table_items] at ht hcalls hc ⊢
      rw [targets_append] at ht
      obtain ⟨hmarks, hentries⟩ := entry_wired r n (fun l hl => ht l (List.mem_append_left _ hl))
        (fun f hf => hcalls f (List.mem_append_left _ hf)) hc.left
      obtain ⟨hmarks', hentries'⟩ := ih _ _ (fun l hl => ht l (List.mem_append_right _ hl))
        (fun f hf => hcalls f (List.mem_append_right _ hf)) hc.right
      rw [marks_append, entries_append]
      constructor
      · intro l hl
        exact (List.mem_append.mp hl).elim (hmarks l) (hmarks' l)
      · intro e he
        exact (List.mem_append.mp he).elim (hentries e) (hentries' e)

section

variable {gt : List Node} (mod_name : Option Name) (mod_type : BitVec 32) (g : Gen)

/-- In a compiled program that fits, jumps stay in bodies, and calls lead to functions. -/
theorem program_wired (h : Fits (listing A gt))
    (hclean : noTest (listing A gt) ∨ ∀ i, (g.fixups i).is_func_call = false) :
    Wired (codegen_x86_emit A gt mod_name mod_type g).1 (codegen_x86_emit A gt mod_name mod_type g).2.1
      (moduleSymbols A gt g) (· ∈ marks (listing A gt)) (.call · ∈ listing A gt) ∧
    ∀ e ∈ entries 64 (listing A gt), Entrance (codegen_x86_emit A gt mod_name mod_type g).1
      (codegen_x86_emit A gt mod_name mod_type g).2.1 (moduleSymbols A gt g)
      (· ∈ marks (listing A gt)) (.call · ∈ listing A gt) e.offset := by
  have hcode : Code (codegen_x86_emit A gt mod_name mod_type g).1
      (codegen_x86_emit A gt mod_name mod_type g).2.1 (moduleSymbols A gt g) 64 (listing A gt) :=
    ⟨module_assembled mod_name mod_type g h hclean, module_end mod_name mod_type g h.roomy⟩
  have hclosed := (table_fresh A .code gt 1).closed
  obtain ⟨hmarks, hentries⟩ := table_wired (T := (· ∈ marks (listing A gt)))
    (C := (.call · ∈ listing A gt)) gt 1 64 (fun l hl => (hclosed l hl).resolve_right List.not_mem_nil)
    (fun f hf => hf) hcode
  refine ⟨⟨?_, hmarks, fun f hf => ?_⟩, hentries⟩
  · exact Nat.lt_of_le_of_lt (binary_len A gt mod_name mod_type g) (by decide)
  · obtain ⟨p, hp⟩ := h.calls f hf
    exact hentries _ (List.mem_of_find?_eq_some (module_func g h.roomy hp).1)

/-- The entry point of a program that fits and has a function is a function. -/
theorem entry_entrance (h : Fits (listing A gt)) (hfun : ∃ q ∈ gt, Function q) :
    ∃ e ∈ entries 64 (listing A gt), e.offset = (codegen_x86_emit A gt mod_name mod_type g).1.le 40 4 := by
  obtain ⟨ps, d, ⟨qs, rfl⟩, hd, -, hoff⟩ := nameOffset_entry (A := A) g entryNames_short hfun
  obtain ⟨hat, -, hmax⟩ := header_holds A (ps ++ d :: qs) mod_name mod_type g
    ⟨_, entryStart_le A g ps, hoff⟩
  obtain ⟨w, hw⟩ := Option.isSome_iff_exists.mp hd
  obtain ⟨E, hE⟩ := entries_split (A := A) ps qs d hw
  have hsize := listing_size (A := A) ps qs d hd
  have hend := module_end mod_name mod_type g h.roomy
  have hstart := entryStart_eq A g ps
  refine ⟨⟨w, 64 + size (listing A ps)⟩, ?_, ?_⟩
  · rw [hE]
    exact List.mem_append_right _ (List.mem_cons_self ..)
  · show 64 + size (listing A ps) = _
    omega

end

end Eke
