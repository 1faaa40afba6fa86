/-
The labels of a listing.

A label is placed once, after it was allocated, and every jump of a program leads to a
label that is placed (`node_fresh`).
-/
import Eke.Compiler.Listing

namespace Eke

variable {xs ys : List Item}

/-! ### Labels -/

/-- The labels a listing places, in order. -/
def marks : List Item → List Nat
  | [] => []
  | .mark l :: is => l :: marks is
  | _ :: is => marks is

/-- The labels a listing jumps to. -/
def targets : List Item → List Nat
  | [] => []
  | .jump _ l :: is => l :: targets is
  | .test _ l :: is => l :: targets is
  | _ :: is => targets is

@[simp] theorem marks_append : marks (xs ++ ys) = marks xs ++ marks ys := by
  induction xs with
  | nil => rfl
  | cons i xs ih =>
      cases i with
      | mark l => simp only [List.cons_append, marks, ih]
      | _ => simpa only [List.cons_append, marks] using ih

@[simp] theorem targets_append : targets (xs ++ ys) = targets xs ++ targets ys := by
  induction xs with
  | nil => rfl
  | cons i xs ih =>
      cases i with
      | jump op l => simp only [List.cons_append, targets, ih]
      | test op l => simp only [List.cons_append, targets, ih]
      | _ => simpa only [List.cons_append, targets] using ih

/-- Every label is placed after it was allocated, and once; the counter starts at `n`. -/
def Marked : Nat → List Item → Prop
  | _, [] => True
  | n, .alloc :: is => Marked (n + 1) is
  | n, .mark l :: is => l < n ∧ l ∉ marks is ∧ Marked n is
  | n, _ :: is => Marked n is

theorem Marked.lt : ∀ {xs : List Item} {n : Nat}, Marked n xs → ∀ l ∈ marks xs, l < n + allocs xs := by
  intro xs
  induction xs with
  | nil => intro n _ l hl; simp [marks] at hl
  | cons i xs ih =>
      intro n h l hl
      cases i with
      | alloc =>
          have := ih h l hl
          simp only [allocs]
          omega
      | mark m =>
          obtain ⟨hm, -, h⟩ := h
          simp only [allocs]
          rcases List.mem_cons.mp hl with rfl | hl
          · omega
          · exact ih h l hl
      | _ => exact ih h l hl

theorem Marked.tail {i : Item} {n : Nat} (h : Marked n (i :: xs)) : Marked (n + allocs [i]) xs := by
  cases i with
  | alloc => exact h
  | mark m => exact h.2.2
  | _ => exact h

theorem Marked.append {b : List Item} : ∀ {xs : List Item} {n : Nat}, Marked n xs → Marked (n + allocs xs) b →
    (∀ l ∈ marks xs, l ∉ marks b) → Marked n (xs ++ b) := by
  intro xs
  induction xs with
  | nil => intro n _ h' _; exact h'
  | cons i xs ih =>
      intro n h h' hd
      cases i with
      | alloc =>
          refine ih (n := n + 1) h ?_ hd
          simp only [allocs] at h'
          rwa [Nat.add_assoc, Nat.add_comm 1]
      | mark m =>
          obtain ⟨hm, hnot, h⟩ := h
          have hnew : m ∉ marks (xs ++ b) := by
            rw [marks_append, List.mem_append, not_or]
            exact ⟨hnot, hd m (List.mem_cons_self ..)⟩
          exact ⟨hm, hnew, ih h h' fun l hl => hd l (List.mem_cons_of_mem _ hl)⟩
      | _ => exact ih h h' hd

/-- A listing that places labels of its own and jumps to those and to the ones in `out`. -/
structure Fresh (out : List Nat) (n : Nat) (xs : List Item) : Prop where
  marked : Marked n xs
  own : ∀ l ∈ marks xs, n ≤ l
  closed : ∀ l ∈ targets xs, l ∈ marks xs ∨ l ∈ out

variable {out : List Nat} {n : Nat}

theorem Fresh.append {a b : List Item} (h : Fresh out n a) (h' : Fresh out (n + allocs a) b) :
    Fresh out n (a ++ b) where
  marked := h.marked.append h'.marked fun l hl hl' => by
    have := h.marked.lt l hl
    have := h'.own l hl'
    omega
  own l hl := by
    rw [marks_append, List.mem_append] at hl
    rcases hl with hl | hl
    · exact h.own l hl
    · have := h'.own l hl
      omega
  closed l hl := by
    rw [targets_append, List.mem_append] at hl
    rw [marks_append, List.mem_append]
    rcases hl with hl | hl
    · exact (h.closed l hl).imp_left Or.inl
    · exact (h'.closed l hl).imp_left Or.inr

theorem Fresh.mono {o : List Nat} (h : Fresh out n xs) (hsub : ∀ l ∈ out, l ∈ o) :
    Fresh o n xs :=
  ⟨h.marked, h.own, fun l hl => (h.closed l hl).imp_right (hsub l)⟩

/-- A listing with nothing to allocate and nothing to place. -/
theorem Fresh.plain (ha : allocs xs = 0) (hm : marks xs = []) (ht : ∀ l ∈ targets xs, l ∈ out) :
    Fresh out n xs := by
  refine ⟨?_, by simp [hm], fun l hl => Or.inr (ht l hl)⟩
  induction xs with
  | nil => trivial
  | cons i xs ih =>
      cases i with
      | alloc => simp [allocs] at ha
      | mark l => simp [marks] at hm
      | jump op l => exact ih ha hm fun m hm' => ht m (List.mem_cons_of_mem _ hm')
      | test op l => exact ih ha hm fun m hm' => ht m (List.mem_cons_of_mem _ hm')
      | _ => exact ih ha hm ht

theorem Fresh.nil : Fresh out n [] := .plain rfl rfl (by simp [targets])

/-- One item that is no bookkeeping of labels. -/
def Item.isPlain : Item → Bool
  | .alloc => false
  | .mark _ => false
  | .jump _ _ => false
  | .test _ _ => false
  | _ => true

theorem Fresh.of_plain (h : xs.all Item.isPlain = true) : Fresh out n xs := by
  have hall : allocs xs = 0 ∧ marks xs = [] ∧ targets xs = [] := by
    induction xs with
    | nil => exact ⟨rfl, rfl, rfl⟩
    | cons i xs ih =>
        rw [List.all_cons, Bool.and_eq_true] at h
        cases i with
        | alloc => cases h.1
        | mark l => cases h.1
        | jump op l => cases h.1
        | test op l => cases h.1
        | _ => exact ih h.2
  exact .plain hall.1 hall.2.1 (by simp [hall.2.2])

theorem load_fresh (offset : Int) : Fresh out n (load_items offset) := .of_plain rfl
theorem store_fresh (offset : Int) : Fresh out n (store_items offset) := .of_plain rfl
theorem builtin_fresh (addr : BitVec 64) : Fresh out n (builtin_items addr) := .of_plain rfl
theorem epilogue_fresh : Fresh out n epilogue_items := .of_plain rfl

theorem bin_fresh (op : Int) : Fresh out n (bin_items op) := by
  unfold bin_items
  split_ifs <;> exact .of_plain rfl

theorem pop_fresh (k : Nat) : Fresh out n (pop_items k) := by
  unfold pop_items
  refine .of_plain ?_
  simp only [List.all_append]
  split_ifs <;> rfl

theorem cut_fresh (k : Nat) (args : Node) : Fresh out n (cut_items k args) := by
  unfold cut_items
  split <;> exact .of_plain rfl

theorem call_fresh (name : Name) (k : Nat) : Fresh out n (call_items name k) := by
  unfold call_items
  split <;> exact .of_plain rfl

theorem prologue_fresh (local_bytes : BitVec 32) : Fresh out n (prologue_items local_bytes) := by
  unfold prologue_items
  split <;> exact .of_plain rfl

/-- Where the labels of a fresh listing lie. -/
theorem Fresh.range (h : Fresh out n xs) {l : Nat} (hl : l ∈ marks xs) : n ≤ l ∧ l < n + allocs xs :=
  ⟨h.own l hl, h.marked.lt l hl⟩

/-- The listing of an `if`, from those of its parts. -/
theorem if_fresh {c t e : List Item} (hc : Fresh [n] (n + 2) c) (ht : Fresh [] (n + 2 + allocs c) t)
    (he : Fresh [] (n + 2 + allocs c + allocs t) e) :
    Fresh out n ([.alloc, .alloc] ++ c ++ t ++ ([.jump .jmp (n + 1), .mark n] ++ e) ++
      [.mark (n + 1)]) := by
  have htail : Marked (n + 2 + allocs c + allocs t)
      ([.jump .jmp (n + 1), .mark n] ++ (e ++ [.mark (n + 1)])) := by
    refine ⟨by omega, fun hl => ?_, he.marked.append ⟨by omega, by simp [marks], trivial⟩
      fun l hl hl' => ?_⟩
    · have hl' : n ∈ marks (e ++ [.mark (n + 1)]) := hl
      rw [marks_append, List.mem_append] at hl'
      rcases hl' with hl' | hl'
      · have := (he.range hl').1
        omega
      · simp [marks] at hl'
    · have := (he.range hl).1
      simp only [marks, List.mem_singleton] at hl'
      omega
  have hmarks : ∀ l ∈ marks ([.jump .jmp (n + 1), .mark n] ++ (e ++ [.mark (n + 1)])),
      l = n ∨ l = n + 1 ∨ n + 2 + allocs c + allocs t ≤ l := by
    intro l hl
    simp only [marks_append, marks, List.cons_append, List.nil_append, List.mem_cons,
      List.mem_append, List.not_mem_nil, or_false] at hl
    rcases hl with hl | hl | hl
    · exact Or.inl hl
    · exact Or.inr (Or.inr (he.range hl).1)
    · exact Or.inr (Or.inl hl)
  have htt := ht.marked.append htail fun l hl hl' => by
    have := ht.range hl
    have := hmarks l hl'
    omega
  have hct := hc.marked.append htt fun l hl hl' => by
    have := hc.range hl
    rw [marks_append, List.mem_append] at hl'
    rcases hl' with hl' | hl'
    · have := (ht.range hl').1
      omega
    · have := hmarks l hl'
      omega
  simp only [List.append_assoc]
  refine ⟨hct, fun l hl => ?_, fun l hl => Or.inl ?_⟩
  · have hl' : l ∈ marks (c ++ (t ++ ([.jump .jmp (n + 1), .mark n] ++ (e ++ [.mark (n + 1)])))) := hl
    rw [marks_append, marks_append, List.mem_append, List.mem_append] at hl'
    rcases hl' with hl' | hl' | hl'
    · have := (hc.range hl').1
      omega
    · have := (ht.range hl').1
      omega
    · have := hmarks l hl'
      omega
  · simp only [targets_append, targets, List.cons_append, List.nil_append, List.mem_append,
      List.mem_cons, List.append_nil] at hl
    simp only [marks_append, marks, List.cons_append, List.nil_append, List.mem_append,
      List.mem_cons, List.not_mem_nil, or_false]
    rcases hl with hl | hl | hl | hl
    · rcases hc.closed l hl with h | h
      · exact Or.inl h
      · exact Or.inr (Or.inr (Or.inl (List.mem_singleton.mp h)))
    · rcases ht.closed l hl with h | h
      · exact Or.inr (Or.inl h)
      · cases h
    · exact Or.inr (Or.inr (Or.inr (Or.inr hl)))
    · rcases he.closed l hl with h | h
      · exact Or.inr (Or.inr (Or.inr (Or.inl h)))
      · cases h

/-- The listing of an `if` without `else`. -/
theorem if_fresh_short {c t : List Item} (hc : Fresh [n + 1] (n + 2) c)
    (ht : Fresh [] (n + 2 + allocs c) t) :
    Fresh out n ([.alloc, .alloc] ++ c ++ t ++ [] ++ [.mark (n + 1)]) := by
  have hct := hc.append (ht.mono (o := [n + 1]) (by simp))
  have hall := hct.marked.append (b := [.mark (n + 1)]) ⟨by omega, by simp [marks], trivial⟩
    fun l hl hl' => by
      have := (hct.range hl).1
      simp only [marks, List.mem_singleton] at hl'
      omega
  simp only [List.append_assoc, List.nil_append] at hall ⊢
  refine ⟨hall, fun l hl => ?_, fun l hl => Or.inl ?_⟩
  · have hl' : l ∈ marks ((c ++ t) ++ [.mark (n + 1)]) := by rwa [List.append_assoc]
    rw [marks_append, List.mem_append] at hl'
    rcases hl' with hl' | hl'
    · have := (hct.range hl').1
      omega
    · simp only [marks, List.mem_singleton] at hl'
      omega
  · have hl' : l ∈ targets ((c ++ t) ++ [.mark (n + 1)]) := by rwa [List.append_assoc]
    show l ∈ marks (c ++ (t ++ [.mark (n + 1)]))
    rw [← List.append_assoc, marks_append, List.mem_append]
    simp only [targets_append, targets, List.append_nil] at hl'
    rw [← targets_append] at hl'
    exact (hct.closed l hl').imp_right id

/-- The listing of a `while`. -/
theorem while_fresh {c t : List Item} (hc : Fresh [n + 1] (n + 2) c)
    (ht : Fresh [] (n + 2 + allocs c) t) :
    Fresh out n ([.alloc, .alloc, .mark n] ++ c ++ t ++ [.jump .jmp n, .mark (n + 1)]) := by
  have hct := hc.append (ht.mono (o := [n + 1]) (by simp))
  have hall := hct.marked.append (b := [.jump .jmp n, .mark (n + 1)])
    ⟨by omega, by simp [marks], trivial⟩ fun l hl hl' => by
      have := (hct.range hl).1
      simp only [marks, List.mem_singleton] at hl'
      omega
  have hmarks : ∀ l ∈ marks ((c ++ t) ++ [.jump .jmp n, .mark (n + 1)]), n + 1 ≤ l := by
    intro l hl
    rw [marks_append, List.mem_append] at hl
    rcases hl with hl | hl
    · have := (hct.range hl).1
      omega
    · simp only [marks, List.mem_singleton] at hl
      omega
  simp only [List.append_assoc] at hall hmarks ⊢
  refine ⟨⟨by omega, fun hl => absurd (hmarks n hl) (by omega), hall⟩, fun l hl => ?_,
    fun l hl => Or.inl ?_⟩
  · rcases List.mem_cons.mp hl with rfl | hl
    · exact Nat.le_refl _
    · have := hmarks l hl
      omega
  · have hl' : l ∈ targets ((c ++ t) ++ [.jump .jmp n, .mark (n + 1)]) := by rwa [List.append_assoc]
    show l ∈ n :: marks (c ++ (t ++ [.jump .jmp n, .mark (n + 1)]))
    rw [← List.append_assoc, marks_append, List.mem_cons, List.mem_append]
    rw [targets_append, List.mem_append] at hl'
    rcases hl' with hl' | hl'
    · exact Or.inr ((hct.closed l hl').imp_right id)
    · exact Or.inl (List.mem_singleton.mp hl')

section

variable (A : Addresses) (L : Limits)

mutual

theorem node_fresh : ∀ (k : Node) (n : Nat), Fresh [] n (node_items A L k n)
  | .null, n => by
      simp only [node_items]
      exact .nil
  | .mk _ k _ _, n => by
      simp only [node_items]
      exact Fresh.append (a := [.visit]) (.of_plain rfl) (kind_fresh k n)

theorem cond_fresh : ∀ (k : Node) (label : Nat) (b : Bool) (n : Nat),
    Fresh [label] n (cond_items A L k label b n)
  | .null, label, b, n => by
      simp only [cond_items]
      exact .nil
  | .mk _ k _ _, label, b, n => by
      cases k with
      | bin op left right =>
          simp only [cond_items]
          have hl := (node_fresh left n).mono (o := [label]) (by simp)
          have hr := (node_fresh right (n + allocs (node_items A L left n))).mono (o := [label])
            (by simp)
          have h := ((Fresh.append (a := [.visit]) (.of_plain rfl) hl).append hr).append
            (b := [.op .pop_rbx, .op .pop_rax, .op .cmp_rbx_rax,
              .jump (.jcc (condOf (if b then op else invert op))) label])
            (.plain rfl rfl (by simp [targets]))
          exact h
      | _ =>
          simp only [cond_items]
          refine (Fresh.append (a := [.visit]) (.of_plain rfl)
            ((kind_fresh _ n).mono (o := [label]) (by simp))).append
            (.plain rfl rfl (by simp [targets]))

theorem block_fresh : ∀ (k : Node) (n : Nat), Fresh [] n (block_items A L k n)
  | .null, n => by
      simp only [block_items]
      exact .nil
  | .mk _ k _ nx, n => by
      cases k with
      | var dt offset value =>
          simp only [block_items]
          refine Fresh.append (Fresh.append (a := [.visit]) (.of_plain rfl) ?_) (block_fresh nx _)
          split
          · exact (node_fresh value n).append (store_fresh _)
          · exact .nil
      | _ =>
          simp only [block_items]
          exact (Fresh.append (a := [.visit]) (.of_plain rfl) (kind_fresh _ n)).append
            (block_fresh nx _)

theorem args_fresh : ∀ (m : Nat) (k : Node) (n : Nat), Fresh [] n (args_items A L m k n)
  | m, .null, n => by
      cases m <;> (simp only [args_items]; exact .nil)
  | m, .mk _ k _ nx, n => by
      cases m with
      | zero => simp only [args_items]; exact .nil
      | succ m =>
          simp only [args_items]
          have h := (args_fresh m nx n).append (b := [.visit]) (.of_plain rfl)
          refine h.append ?_
          rw [allocs_append]
          exact kind_fresh k _

theorem kind_fresh : ∀ (k : Kind) (n : Nat), Fresh [] n (kind_items A L k n)
  | .int v, n => by simp only [kind_items]; exact .of_plain rfl
  | .elem e, n => by simp only [kind_items]; exact .of_plain rfl
  | .var _ offset _, n => by simp only [kind_items]; exact load_fresh _
  | .bin op left right, n => by
      simp only [kind_items]
      exact ((((node_fresh left n).append (node_fresh right _)).append (.of_plain rfl)).append
        (bin_fresh op)).append (.of_plain rfl)
  | .assign offset op left right, n => by
      have hr := node_fresh right n
      cases left with
      | null => simp only [kind_items]; exact hr.append (.of_plain rfl)
      | mk t k ix nx =>
          cases k with
          | var dt off v =>
              simp only [kind_items]
              exact (hr.append (.of_plain rfl)).append (store_fresh _)
          | pointer e v =>
              simp only [kind_items]
              have h := hr.append (b := [.visit]) (.of_plain rfl)
              refine (h.append ?_).append (.of_plain rfl)
              rw [allocs_append]
              exact node_fresh v _
          | _ => simp only [kind_items]; exact hr.append (.of_plain rfl)
  | .return_ value, n => by
      simp only [kind_items]
      refine Fresh.append ?_ epilogue_fresh
      split
      · exact (node_fresh value n).append (.of_plain rfl)
      · exact .of_plain rfl
  | .if_ cond then_stmt else_stmt, n => by
      simp only [kind_items]
      by_cases hs : else_stmt.isSome = true
      · simp only [if_pos hs]
        exact if_fresh (cond_fresh cond n false _) (node_fresh then_stmt _) (node_fresh else_stmt _)
      · simp only [if_neg hs]
        exact if_fresh_short (cond_fresh cond (n + 1) false _) (node_fresh then_stmt _)
  | .while_ cond then_stmt _, n => by
      simp only [kind_items]
      exact while_fresh (cond_fresh cond (n + 1) false _) (node_fresh then_stmt _)
  | .block body, n => by
      simp only [kind_items]
      exact block_fresh body n
  | .call name args _, n => by
      simp only [kind_items]
      have hall : Fresh [] n (cut_items L.args args ++ args_items A L L.args args n) :=
        (cut_fresh _ _).append (by rw [allocs_cut]; exact args_fresh L.args args n)
      have hone : Fresh [] n (cut_items L.first args ++ (if args.isSome then
          args_items A L L.first args n ++ [.op .pop_rdi] else [.op .xor_rdi_rdi])) := by
        refine (cut_fresh _ _).append ?_
        rw [allocs_cut]
        split
        · exact (args_fresh L.first args n).append (.of_plain rfl)
        · exact .of_plain rfl
      generalize (if args.isSome then args_items A L L.first args n ++ [.op .pop_rdi]
        else [.op .xor_rdi_rdi]) = one at hone ⊢
      split_ifs
      · exact (hall.append (.of_plain rfl)).append (builtin_fresh _)
      · exact ((hall.append (pop_fresh _)).append (.of_plain rfl)).append (builtin_fresh _)
      · exact .of_plain rfl
      · exact hone.append (builtin_fresh _)
      · exact hone.append (builtin_fresh _)
      · exact hall.append (call_fresh _ _)
  | .pointer _ value, n => by
      simp only [kind_items]
      exact (node_fresh value n).append (.of_plain rfl)
  | .str string, n => by simp only [kind_items]; exact .of_plain rfl
  | .func .., n => by simp only [kind_items]; exact .of_plain rfl
  | .gvar .., n => by simp only [kind_items]; exact .of_plain rfl
  | .addr _, n => by simp only [kind_items]; exact .of_plain rfl
  | .break_, n => by simp only [kind_items]; exact .of_plain rfl
  | .continue_, n => by simp only [kind_items]; exact .of_plain rfl
  | .arr_access _, n => by simp only [kind_items]; exact .of_plain rfl
  | .mem_access .., n => by simp only [kind_items]; exact .of_plain rfl
  | .preinc _, n => by simp only [kind_items]; exact .of_plain rfl
  | .predec _, n => by simp only [kind_items]; exact .of_plain rfl
  | .postinc _, n => by simp only [kind_items]; exact .of_plain rfl
  | .postdec _, n => by simp only [kind_items]; exact .of_plain rfl

end

theorem entry_fresh (p : Node) (n : Nat) : Fresh [] n (entry_items A L p n) := by
  cases p with
  | null => exact .nil
  | mk t k ix nx =>
      cases k with
      | func name args body ret localvarbyte argcount =>
          simp only [entry_items]
          have h : Fresh [] n _ := (Fresh.append (a := [.func name]) (.of_plain rfl)
            (prologue_fresh (BitVec.ofInt 32 localvarbyte + 32)))
          refine (h.append ?_).append epilogue_fresh
          have ha : allocs ([.func name] ++ prologue_items (BitVec.ofInt 32 localvarbyte + 32)) = 0 := by
            unfold prologue_items
            split <;> rfl
          rw [ha]
          exact node_fresh A L body n
      | _ => exact .nil

theorem table_fresh : ∀ (ps : List Node) (n : Nat), Fresh [] n (table_items A L ps n) := by
  intro ps
  induction ps with
  | nil => intro n; exact .nil
  | cons p ps ih => intro n; exact (entry_fresh A L p n).append (ih _)

end

end Eke
