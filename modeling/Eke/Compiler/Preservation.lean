/-
The compiler preserves meaning.

`Behaves` is about the code of a statement: it runs to its end in a frame that holds the variables
as the interpreter leaves them, or leaves the function with the value that is returned, or is
busy as long as the interpreter is.  A loop pays for its fuel with the jump back.  So every
function of a compiled program does what calls of it mean, in words; and what has a meaning in
C comes out as in C.
-/
import Eke.Compiler.Evaluation

namespace Eke

open Gen Store X86

variable {bin : Store} {len : Nat} {M : Setting bin len} {Y : Symbols} {A : Addresses} {F F' : Frame}
  {gt : List Node} {ρ ρ' : Vars (BitVec 64)} {r : Deeper (BitVec 64)} {top n k p q S S' l : Nat}
  {c d e : Cpu} {xs ys : List Item} {x : Answer (BitVec 64)} {u w : BitVec 64} {a : Answer (After (BitVec 64))}

/-! ### Frames -/

/-- The frame as it is in a state in which the processor is inside of it. -/
def Inside.frame (h : Inside M F p S c) : Frame where
  lv := F.lv
  argc := F.argc
  base := F.base
  top := S
  mem := c.mem
  clear := by
    have := F.clear
    have := h.le
    omega

theorem Inside.reframe (h : Inside M F p S c) : Inside M h.frame p S c :=
  ⟨h.on, h.framed, Nat.le_refl S, .refl⟩

/-- What is below the stack pointer is no variable. -/
theorem Inside.stands (h : Inside M F p S c) {y : Int} (hy : F.Stands y w) : h.frame.Stands y w := by
  have hclear := F.clear
  rcases hy with ⟨hloc, hval⟩ | ⟨i, hi, rfl, hval⟩
  · refine Or.inl ⟨hloc, ?_⟩
    rw [← hval]
    congr 1
    unfold Frame.int dword
    obtain ⟨h0, h4, hlt⟩ := hloc
    show BitVec.ofNat 32 (c.mem.le (F.base - (y.toNat + 8)) 4) = _
    rw [le_congr fun z hz hz' => h.mem z fun hb => ?_]
    have := hb.2
    omega
  · refine Or.inr ⟨i, hi, rfl, ?_⟩
    rw [← hval]
    show c.mem.word (F.base + 16 + 8 * i) = _
    refine h.mem.word fun z hz hz' hb => ?_
    have := hb.2
    omega

theorem Inside.holds (h : Inside M F p S c) (hρ : F.Holds ρ) : h.frame.Holds ρ :=
  ⟨hρ.lv, hρ.argc, fun y v hy => h.stands (hρ.held y v hy)⟩

/-- One variable is changed. -/
theorem Frame.Holds.put (hρ : F.Holds ρ) {z : Int} {v : Option (BitVec 64)} (hlv : F'.lv = F.lv)
    (hargc : F'.argc = F.argc) (hz : ∀ w, v = some w → F'.Stands z w)
    (hother : ∀ y w, y ≠ z → F.Stands y w → F'.Stands y w) : F'.Holds (ρ.put z v) := by
  refine ⟨hlv.trans hρ.lv, hargc.trans hρ.argc, fun y w hy => ?_⟩
  simp only [Vars.put] at hy
  by_cases hyz : y = z
  · rw [if_pos hyz] at hy
    exact hyz ▸ hz w hy
  · rw [if_neg hyz] at hy
    exact hother y w hyz (hρ.held y w hy)

/-- The frame with another memory. -/
def Frame.with (F : Frame) (m : Store) : Frame := { F with mem := m }

/-- A local variable is stored to. -/
theorem Frame.Holds.set_local (hρ : F.Holds ρ) {z : Int} (hz : Local F.lv z) (hlv : F.lv % 4 = 0)
    (u : BitVec 64) :
    (F.with (F.mem.setLe (F.base - (z.toNat + 8)) 4 u.toNat)).Holds
      (ρ.put z (some ((low u).setWidth 64))) := by
  have hclear := F.clear
  refine hρ.put rfl rfl (fun w hw => ?_) fun y w hyz hy => ?_
  · obtain rfl := Option.some.inj hw
    refine Or.inl ⟨hz, congrArg (BitVec.setWidth 64) ?_⟩
    show dword (F.mem.setLe _ 4 u.toNat) (F.base - (z.toNat + 8)) = _
    rw [dword_setLe (Or.inr (Or.inr rfl)), if_pos rfl]
    exact BitVec.ofNat_toNat 32 u
  · obtain ⟨h0, h4, hlt⟩ := hz
    rcases hy with ⟨⟨hy0, hy4, hylt⟩, hval⟩ | ⟨i, hi, rfl, hval⟩
    · refine Or.inl ⟨⟨hy0, hy4, hylt⟩, ?_⟩
      rw [← hval]
      congr 1
      show dword (F.mem.setLe _ 4 u.toNat) (F.base - (y.toNat + 8)) = _
      rw [dword_setLe (by omega), if_neg (by omega)]
      rfl
    · refine Or.inr ⟨i, hi, rfl, ?_⟩
      rw [← hval]
      show (F.mem.setLe _ 4 u.toNat).word (F.base + 16 + 8 * i) = F.mem.word (F.base + 16 + 8 * i)
      unfold Store.word
      rw [le_setLe_out (by omega)]

/-- A parameter is stored to. -/
theorem Frame.Holds.set_param (hρ : F.Holds ρ) {i : Nat} (hi : i < F.argc) (u : BitVec 64) :
    (F.with (F.mem.setWord (F.base + 16 + 8 * i) u)).Holds
      (ρ.put (-12 - 4 * (i : Int)) (some u)) := by
  have hclear := F.clear
  refine hρ.put rfl rfl (fun w hw => ?_) fun y w hyz hy => ?_
  · obtain rfl := Option.some.inj hw
    exact Or.inr ⟨i, hi, rfl, word_setWord⟩
  · rcases hy with ⟨⟨hy0, hy4, hylt⟩, hval⟩ | ⟨j, hj, rfl, hval⟩
    · refine Or.inl ⟨⟨hy0, hy4, hylt⟩, ?_⟩
      rw [← hval]
      congr 1
      show BitVec.ofNat 32 ((F.mem.setWord (F.base + 16 + 8 * i) u).le (F.base - (y.toNat + 8)) 4) = _
      rw [le_congr fun b hb hb' => setWord_out (by omega)]
      rfl
    · refine Or.inr ⟨j, hj, rfl, ?_⟩
      rw [← hval]
      show (F.mem.setWord (F.base + 16 + 8 * i) u).word (F.base + 16 + 8 * j) = _
      exact word_setWord_out (by omega)

/-! ### Statements -/

/-- Two frames of one function. -/
structure Frame.Alike (F F' : Frame) : Prop where
  base : F'.base = F.base
  lv : F'.lv = F.lv
  argc : F'.argc = F.argc

theorem Frame.Alike.trans {G : Frame} (h : F.Alike F') (h' : F'.Alike G) : F.Alike G :=
  ⟨h'.base.trans h.base, h'.lv.trans h.lv, h'.argc.trans h.argc⟩

theorem Frame.Alike.top_le (h : F.Alike F') (htop : F.base + 8 ≤ top) : F'.base + 8 ≤ top := by
  rw [h.base]
  exact htop

/-- The end of a statement's code, at `q`: the variables are those the statement leaves, or the
function was left. -/
def Done (M : Setting bin len) (F : Frame) (q S : Nat) (m : Store) : After (BitVec 64) → Cpu → Prop
  | .next ρ, d => ∃ F' S', S' ≤ S ∧ F.Alike F' ∧ F'.Holds ρ ∧ Inside M F' q S' d ∧
      Changes (M.frame F.base F.argc) m d.mem
  | .left v, d => Left M F.base F.argc m d ∧ ∀ u, v = some u → d.rax = u

/-- The code of a statement does what it means. -/
def Behaves (M : Setting bin len) (Y : Symbols) (F : Frame) (top n : Nat) (xs : List Item)
    (a : Answer (After (BitVec 64))) : Prop :=
  ∀ p S c, Code bin len Y p xs → Inside M F p S c →
    Fulfils (upTo top) n M.Low (Done M F (p + size xs) S c.mem) a c

/-- The loops do what they mean, from their conditions on. -/
def LoopsDo (M : Setting bin len) (Y : Symbols) (A : Addresses) (top n : Nat) (r : Deeper (BitVec 64)) :
    Prop :=
  ∀ kind k F ρ, F.base + 8 ≤ top → F.Holds ρ → Behaves M Y F top n (kind_items A .code kind k) (r.again kind ρ)

theorem Behaves.visit (h : Behaves M Y F top n xs a) : Behaves M Y F top n (.visit :: xs) a := by
  intro p S c hc hin
  have := h p S c hc.tail hin
  simpa only [size_cons, Item.size, Nat.zero_add] using this

theorem Behaves.nil (hρ : F.Holds ρ) : Behaves M Y F top n [] (.is (.next ρ)) :=
  fun _ S _ _ hin => .here ⟨F, S, Nat.le_refl S, ⟨rfl, rfl, rfl⟩, hρ, hin, .refl⟩

/-- The end of a later statement is the end of the earlier ones. -/
theorem Done.since {m m' : Store} {b : After (BitVec 64)} (h : Done M F' q S' m' b d) (hF : F.Alike F')
    (hS : S' ≤ S) (hm : Changes (M.frame F.base F.argc) m m') : Done M F q S m b d := by
  cases b with
  | next ρ =>
      obtain ⟨G, T, hT, hG, hρ, hin, hch⟩ := h
      rw [hF.base, hF.argc] at hch
      exact ⟨G, T, Nat.le_trans hT hS, hF.trans hG, hρ, hin, hm.trans hch⟩
  | left v =>
      obtain ⟨hleft, hrax⟩ := h
      rw [hF.base, hF.argc] at hleft
      exact ⟨hleft.after hm, hrax⟩

/-- What is done behind a statement. -/
theorem Behaves.step {f : Vars (BitVec 64) → Answer (After (BitVec 64))} (h : Behaves M Y F top n xs a)
    (hc : Code bin len Y p xs) (hin : Inside M F p S c)
    (hk : ∀ F' ρ' S' d, F.Alike F' → F'.Holds ρ' → S' ≤ S → Inside M F' (p + size xs) S' d →
      Changes (M.frame F.base F.argc) c.mem d.mem →
      Fulfils (upTo top) n M.Low (Done M F q S c.mem) (f ρ') d) :
    Fulfils (upTo top) n M.Low (Done M F q S c.mem) (behind a f) c := by
  refine (h p S c hc hin).bind fun b d _ hd => ?_
  cases b with
  | next ρ' =>
      obtain ⟨F', S', hS', hF, hρ', hin', hch⟩ := hd
      exact hk F' ρ' S' d hF hρ' hS' hin' hch
  | left v => exact .here hd

theorem Behaves.behind {f : Vars (BitVec 64) → Answer (After (BitVec 64))} (h : Behaves M Y F top n xs a)
    (hk : ∀ F' ρ', F.Alike F' → F'.Holds ρ' → Behaves M Y F' top n ys (f ρ')) :
    Behaves M Y F top n (xs ++ ys) (behind a f) := by
  intro p S c hc hin
  refine h.step hc.left hin fun F' ρ' S' d hF hρ' hS' hin' hch => ?_
  rw [size_append, ← Nat.add_assoc]
  exact (hk F' ρ' hF hρ' _ S' d hc.right hin').mono fun b e _ he => he.since hF hS' hch

/-- An expression as a statement leaves its word on the stack. -/
theorem Gives.does {α : Type} {z : Answer α} (hρ : F.Holds ρ)
    (h : ∀ p S c, Code bin len Y p xs → Inside M F p S c →
      Fulfils (upTo top) n M.Low (fun _ d => ∃ w, Pushes M F (p + size xs) S c.mem (some w) d) z c) :
    Behaves M Y F top n xs (z >>= fun _ => .is (.next ρ)) := by
  intro p S c hc hin
  refine (h p S c hc hin).bind fun _ d _ hd => .here ?_
  obtain ⟨w, hon, hch, -⟩ := hd
  exact ⟨F, S - 8, Nat.sub_le _ _, ⟨rfl, rfl, rfl⟩, hρ, hin.next hon (Nat.sub_le _ _) hch,
    hch.mono fun y => below_frame F.argc hin.framed.sp⟩

/-- A variable is stored to. -/
theorem Inside.stored {m m' : Store} (htop : F.base + 8 ≤ top) (h : Inside M F p S c)
    (hstep : c.step = some { c with rip := place M.base q, mem := m' })
    (hch : Changes (M.frame F.base F.argc) c.mem m') (hρ : (h.frame.with m').Holds ρ)
    (hm : Changes (M.frame F.base F.argc) m c.mem) :
    Fulfils (upTo top) n M.Low (Done M F q S m) (.is (.next ρ)) c := by
  have hlow := h.framed.low
  have hhigh := h.framed.high
  have hload := Setting.loaded h.on.loaded hch fun y hy => by
    unfold Setting.frame at hy
    omega
  refine .ahead ((h.up (by omega)).trans hstep) (.here ?_)
  exact ⟨h.frame.with m', S, Nat.le_refl S, ⟨rfl, rfl, rfl⟩, hρ,
    ⟨⟨hload, rfl, h.on.rbp, h.on.rsp⟩, h.framed, Nat.le_refl S, .refl⟩, hm.trans hch⟩

theorem isLocal_iff {z : Int} : ρ.isLocal z = true ↔ Local ρ.lv z := decide_eq_true_iff

theorem isParam_index {z : Int} (h : ρ.isParam z = true) :
    ∃ i : Nat, i < ρ.argc ∧ z = -12 - 4 * (i : Int) := by
  obtain ⟨hle, hmod, hlt⟩ := of_decide_eq_true h
  refine ⟨paramIndex z, hlt, ?_⟩
  unfold paramIndex
  omega

/-- A value is popped into a variable. -/
theorem store_does (htop : F.base + 8 ≤ top) (hρ : F.Holds ρ) (offset : Int) (h : Gives M Y F top n xs x) :
    Behaves M Y F top n (xs ++ store_items offset)
      (x >>= fun v => ρ.set wordValues offset v >>= fun ρ' => .is (.next ρ')) := by
  intro p S c hc hin
  refine h.step hc hin fun u d hS hd hch hword => ?_
  have hmax := M.top
  have hle := hin.framed.top_le
  have hlow := hin.framed.low
  have hhigh := hin.framed.high
  have hparams := hin.framed.params
  obtain ⟨e, he, hon, hmem, hrax, -⟩ := hd.on.pop_rax hc.right (by omega)
  rw [show S - 8 + 8 = S by omega] at hon
  have hine : Inside M F (p + size xs + 1) S e := hin.next hon (Nat.le_refl S) (hmem ▸ hch)
  have hche : Changes (M.frame F.base F.argc) c.mem e.mem := by
    rw [hmem]
    exact hch.mono fun y => below_frame F.argc hin.framed.sp
  have hu : e.rax = u := hrax.trans hword
  have hw : (if offset < 0 then Op.mov_rax_rbp else .mov_eax_rbp).width = 4 := by split <;> rfl
  have hfetch := hon.fetch (Code.tail hc.right)
  rw [hw] at hfetch
  have hsize : p + size xs + 1 + (Instr.bytes
      ⟨if offset < 0 then .mov_rax_rbp else .mov_eax_rbp, (disp offset).toNat⟩).length =
      p + size (xs ++ store_items offset) := by
    rw [size_append]
    simp [store_items, Item.size, Instr.bytes, Op.opcode, Op.width, Nat.add_assoc]
  rw [hsize] at hfetch
  have hin' := hine.holds hρ
  refine .ahead ((hd.up (by omega)).trans he) ?_
  unfold Vars.set
  by_cases hpar : ρ.isParam offset = true
  · obtain ⟨i, hi, rfl⟩ := isParam_index hpar
    rw [← hρ.argc] at hi
    rw [if_pos hpar]
    rw [if_pos (by omega)] at hfetch
    have hstep := hfetch.trans (store_param (c := { e with rip := _ }) hon.rbp (by omega) (by omega))
    refine hine.stored htop hstep (changes_setWord fun y hy hy' => Or.inr ⟨by omega, by omega⟩) ?_ hche
    rw [← hu]
    exact hin'.set_param hi e.rax
  rw [if_neg hpar]
  by_cases hloc : ρ.isLocal offset = true
  · have hl : Local F.lv offset := by
      rw [hρ.lv]
      exact isLocal_iff.mp hloc
    have h0 := hl.1
    rw [if_pos hloc]
    rw [if_neg (by omega)] at hfetch
    have hstep := hfetch.trans (store_local (c := { e with rip := _ }) hon.rbp hin.framed hl)
    refine hine.stored htop hstep (changes_setLe fun y hy hy' => Or.inl ⟨?_, ?_⟩) ?_ hche
    · have := hl.2.2
      omega
    · omega
    · rw [← hu]
      exact hin'.set_local hl hin.framed.words e.rax
  · rw [if_neg hloc]
    trivial

/-- The frame is dropped and the processor returns. -/
theorem epilogue_reaches (htop : F.base + 8 ≤ top) (h : Inside M F p S c)
    (hc : Code bin len Y p (epilogue_items ++ xs)) :
    Attains (upTo top) (fun d => Left M F.base F.argc c.mem d ∧ d.rax = c.rax) c := by
  have hmax := M.top
  have hhigh := h.framed.high
  have hleave : c.step = some { c with
      rip := place M.base (p + 1), rsp := c.rbp + 8, rbp := c.mem.word F.base } := by
    have hpop := pop_eq (c := { c with rip := place M.base (p + 1), rsp := c.rbp }) h.on.rbp (by omega)
    rw [h.on.fetch hc]
    show (Cpu.pop { c with rip := place M.base (p + 1), rsp := c.rbp }).map _ = _
    rw [hpop]
    rfl
  have hrsp : (c.rbp + 8).toNat = F.base + 8 :=
    rsp_add (k := 8) (c := { c with rsp := c.rbp }) h.on.rbp (by omega)
  have hon : On M (p + 1) (c.mem.word F.base).toNat (F.base + 8)
      { c with rip := place M.base (p + 1), rsp := c.rbp + 8, rbp := c.mem.word F.base } :=
    ⟨h.on.loaded, rfl, rfl, hrsp⟩
  have hpop := pop_eq (S := F.base + 8) (c := { c with
    rip := place M.base (p + 2), rsp := c.rbp + 8, rbp := c.mem.word F.base }) hrsp (by omega)
  have hret := (hon.fetch (Code.tail hc)).trans (congrArg (Option.map _) hpop)
  have hguard := upTo_eq (Nat.le_trans (Nat.le_of_eq hon.rsp) htop)
  refine .ahead ((h.up (by omega)).trans hleave) (.ahead (hguard.trans hret) (.here ⟨⟨rfl, rfl, ?_, .refl⟩, rfl⟩))
  exact rsp_add (k := 8) (c := { c with rsp := c.rbp + 8 }) hrsp (by omega)

/-- A return of a value. -/
theorem return_does (htop : F.base + 8 ≤ top) (h : Gives M Y F top n xs x) :
    Behaves M Y F top n (xs ++ [.op .pop_rax] ++ epilogue_items) (x >>= fun u => .is (.left (some u))) := by
  intro p S c hc hin
  rw [List.append_assoc] at hc
  refine h.step hc hin fun u d hS hd hch hword => ?_
  have hmax := M.top
  have hle := hin.framed.top_le
  obtain ⟨e, he, hon, hmem, hrax, -⟩ := hd.on.pop_rax hc.right (by omega)
  rw [show S - 8 + 8 = S by omega] at hon
  have hine : Inside M F (p + size xs + 1) S e := hin.next hon (Nat.le_refl S) (hmem ▸ hch)
  have hepi : Code bin len Y (p + size xs + 1) (epilogue_items ++ []) := Code.tail hc.right
  refine .ahead ((hd.up (by omega)).trans he) (Attains.mono (epilogue_reaches htop hine hepi) fun f hf => ?_)
  obtain ⟨hleft, hrax'⟩ := hf
  rw [hmem] at hleft
  refine Or.inr ⟨hleft.after (hch.mono fun y => below_frame F.argc hin.framed.sp), fun v hv => ?_⟩
  rw [hrax', hrax, hword]
  exact Option.some.inj hv

theorem return_void_does (htop : F.base + 8 ≤ top) :
    Behaves M Y F top n ([.op .xor_eax_eax] ++ epilogue_items) (.is (.left none)) := by
  intro p S c hc hin
  have hrest : Code bin len Y p (.op .xor_eax_eax :: (epilogue_items ++ [])) := hc
  obtain ⟨e, he, hon, hmem⟩ := hin.on.quiet hrest rfl
  have hine := hin.keep hon hmem
  refine .ahead ((hin.up (by omega)).trans he)
    (Attains.mono (epilogue_reaches htop hine hrest.tail) fun f hf => Or.inr ⟨?_, nofun⟩)
  rw [← hmem]
  exact hf.1

/-- What a condition does, with the code it decides about behind it or at the label. -/
theorem Branches.step {b : Answer Bool} {f : Bool → Answer (After (BitVec 64))}
    (h : Branches M Y F top n xs l b) (hc : Code bin len Y p (xs ++ ys)) (hin : Inside M F p S c)
    (hlab : Y.label l ≤ len)
    (hk : ∀ t d, Inside M F (if t = true then p + size xs else Y.label l) S d →
      Changes (M.frame F.base F.argc) c.mem d.mem →
      Fulfils (upTo top) n M.Low (Done M F q S c.mem) (f t) d) :
    Fulfils (upTo top) n M.Low (Done M F q S c.mem) (b >>= f) c := by
  refine (h p S c hc.left hin hlab).bind fun t d _ hd => ?_
  obtain ⟨hon, hch⟩ := hd
  exact hk t d (hin.next hon (Nat.le_refl S) hch) (hch.mono fun y => below_frame F.argc hin.framed.sp)

/-- A conditional without an else branch. -/
theorem if_does {b : Answer Bool} (hρ : F.Holds ρ) (hcond : Branches M Y F top n xs l b)
    (ht : Behaves M Y F top n ys a) :
    Behaves M Y F top n ([.alloc, .alloc] ++ xs ++ ys ++ [] ++ [.mark l])
      (b >>= fun t => if t = true then a else .is (.next ρ)) := by
  intro p S c hc hin
  have hc' : Code bin len Y p (xs ++ (ys ++ [.mark l])) := by
    have h : Code bin len Y p ([.alloc, .alloc] ++ (xs ++ (ys ++ [.mark l]))) := by
      simpa only [List.append_assoc, List.nil_append] using hc
    exact h.right
  have hsize : p + size ([.alloc, .alloc] ++ xs ++ ys ++ [] ++ [.mark l]) = p + size xs + size ys := by
    simp only [size_append, size_cons, size_nil, Item.size]
    omega
  obtain ⟨hlab, hle⟩ := mark_at hc'.right.right
  rw [hsize]
  refine hcond.step hc' hin (by omega) fun t d hd hch => ?_
  cases t with
  | true => exact (ht _ S d hc'.right.left hd).mono fun _ e _ he => he.since ⟨rfl, rfl, rfl⟩ (Nat.le_refl S) hch
  | false => exact .here ⟨F, S, Nat.le_refl S, ⟨rfl, rfl, rfl⟩, hρ, hlab ▸ hd, hch⟩

/-- A conditional with an else branch. -/
theorem if_else_does {b : Answer Bool} {zs : List Item} {l' : Nat} {a' : Answer (After (BitVec 64))}
    (htop : F.base + 8 ≤ top) (hcond : Branches M Y F top n xs l b) (ht : Behaves M Y F top n ys a)
    (he : Behaves M Y F top n zs a') :
    Behaves M Y F top n ([.alloc, .alloc] ++ xs ++ ys ++ ([.jump .jmp l', .mark l] ++ zs) ++ [.mark l'])
      (b >>= fun t => if t = true then a else a') := by
  intro p S c hc hin
  have hc' : Code bin len Y p (xs ++ (ys ++ (.jump .jmp l' :: .mark l :: (zs ++ [.mark l'])))) := by
    have h : Code bin len Y p ([.alloc, .alloc] ++
        (xs ++ (ys ++ (.jump .jmp l' :: .mark l :: (zs ++ [.mark l']))))) := by
      simpa only [List.append_assoc, List.cons_append, List.nil_append] using hc
    exact h.right
  have hjump := hc'.right.right
  have helse : Code bin len Y (p + size xs + size ys + 5) (.mark l :: (zs ++ [.mark l'])) := hjump.tail
  have hzs : Code bin len Y (p + size xs + size ys + 5) (zs ++ [.mark l']) := helse.tail
  obtain ⟨hlab, hle⟩ := mark_at helse
  obtain ⟨hlab', hle'⟩ := mark_at hzs.right
  have hsize : p + size ([.alloc, .alloc] ++ xs ++ ys ++ ([.jump .jmp l', .mark l] ++ zs) ++ [.mark l'])
      = p + size xs + size ys + 5 + size zs := by
    have hjmp : Op.jmp.opcode.length = 1 := rfl
    simp only [size_append, size_cons, size_nil, Item.size, hjmp]
    omega
  rw [hsize]
  refine hcond.step hc' hin (by omega) fun t d hd hch => ?_
  cases t with
  | true =>
      refine (ht _ S d hc'.right.left hd).further fun b e _ he => ?_
      cases b with
      | next ρ' =>
          -- the jump over the else branch
          obtain ⟨F', S', hS', hF, hρ', hin', hch'⟩ := he
          obtain ⟨f, hf, honf, hmem⟩ := hin'.on.jump hjump (by omega)
          have hup := hF.top_le htop
          refine .ahead ((hin'.up (by omega)).trans hf) (.here (Or.inr ?_))
          exact ⟨F', S', hS', hF, hρ', hlab' ▸ hin'.keep honf hmem, hch.trans (hmem ▸ hch')⟩
      | left v => exact .here (Or.inr (Done.since (b := .left v) he ⟨rfl, rfl, rfl⟩ (Nat.le_refl S) hch))
  | false =>
      have hd' : Inside M F (p + size xs + size ys + 5) S d := hlab ▸ hd
      exact (he _ S d hzs.left hd').mono fun _ e _ he => he.since ⟨rfl, rfl, rfl⟩ (Nat.le_refl S) hch

/-- A loop; the jump back is the step that the next round's fuel is short of. -/
theorem while_does {b : Answer Bool} {l' : Nat} {f : Vars (BitVec 64) → Answer (After (BitVec 64))}
    (htop : F.base + 8 ≤ top) (hρ : F.Holds ρ) (hcond : Branches M Y F top (n + 1) xs l' b)
    (ht : Behaves M Y F top (n + 1) ys a)
    (hloop : ∀ F' ρ', F.Alike F' → F'.Holds ρ' → Behaves M Y F' top n ([.alloc, .alloc, .mark l] ++ xs ++ ys ++
      [.jump .jmp l, .mark l']) (f ρ')) :
    Behaves M Y F top (n + 1) ([.alloc, .alloc, .mark l] ++ xs ++ ys ++ [.jump .jmp l, .mark l'])
      (b >>= fun t => if t = true then behind a f else .is (.next ρ)) := by
  intro p S c hc hin
  have hmark : Code bin len Y p (.mark l :: (xs ++ (ys ++ [.jump .jmp l, .mark l']))) := by
    have h : Code bin len Y p ([.alloc, .alloc] ++
        (.mark l :: (xs ++ (ys ++ [.jump .jmp l, .mark l'])))) := by
      simpa only [List.append_assoc, List.cons_append, List.nil_append] using hc
    exact h.right
  have hc' : Code bin len Y p (xs ++ (ys ++ [.jump .jmp l, .mark l'])) := hmark.tail
  have hjump := hc'.right.right
  have hend : Code bin len Y (p + size xs + size ys + 5) [.mark l'] := hjump.tail
  obtain ⟨hlab, hle⟩ := mark_at hmark
  obtain ⟨hlab', hle'⟩ := mark_at hend
  have hsize : p + size ([.alloc, .alloc, .mark l] ++ xs ++ ys ++ [.jump .jmp l, .mark l'])
      = p + size xs + size ys + 5 := by
    have hjmp : Op.jmp.opcode.length = 1 := rfl
    simp only [size_append, size_cons, size_nil, Item.size, hjmp]
    omega
  rw [hsize]
  refine hcond.step hc' hin (by omega) fun t d hd hch => ?_
  cases t with
  | true =>
      refine (ht _ S d hc'.right.left hd).bind fun b e _ he => ?_
      cases b with
      | next ρ' =>
          obtain ⟨F', S', hS', hF, hρ', hin', hch'⟩ := he
          obtain ⟨g, hg, hong, hmem⟩ := hin'.on.jump hjump (by omega)
          have hup := hF.top_le htop
          have hing : Inside M F' p S' g := hlab ▸ hin'.keep hong hmem
          have hback : Changes (M.frame F.base F.argc) c.mem g.mem := hch.trans (hmem ▸ hch')
          refine .next ((hin'.up (by omega)).trans hg) ((hloop F' ρ' hF hρ' p S' g hc hing).mono
            fun b i _ hi => ?_)
          rw [hsize] at hi
          exact hi.since hF hS' hback
      | left v => exact .here (Done.since (b := .left v) he ⟨rfl, rfl, rfl⟩ (Nat.le_refl S) hch)
  | false => exact .here ⟨F, S, Nat.le_refl S, ⟨rfl, rfl, rfl⟩, hρ, hlab' ▸ hd, hch⟩

theorem Gives.append_visit (h : Gives M Y F top n xs x) : Gives M Y F top n (xs ++ [.visit]) x := by
  intro p S c hc hin
  have := h p S c hc.left hin
  rwa [size_append]

/-- What comes behind an expression has no meaning. -/
theorem Gives.wild {α : Type} (h : Gives M Y F top n xs x) : Behaves M Y F top n (xs ++ ys)
    (x >>= fun _ => (.wild : Answer α) >>= fun _ => .wild) := by
  intro p S c hc hin
  exact (h p S c hc.left hin).bind fun _ _ _ _ => trivial

theorem assign_does (htop : F.base + 8 ≤ top) (hcalls : CallsDo M Y top n r) (hfun : ∀ f, Y.func f ≤ len)
    (hρ : F.Holds ρ) (offset op : Int) (left right : Node) (k : Nat) :
    Behaves M Y F top (n + 1) (kind_items A .code (.assign offset op left right) k)
      (kind_runs wordValues r ρ (.assign offset op left right)) := by
  have h := node_gives (A := A) (by omega : F.base ≤ top) hcalls hfun hρ right k
  cases left with
  | null =>
      simp only [kind_runs, kind_items]
      exact h.wild (α := Unit)
  | mk t kind ix nx =>
      cases kind with
      | var dt off value =>
          simp only [kind_runs, kind_items]
          exact store_does htop hρ _ h.append_visit
      | pointer e value =>
          simp only [kind_runs, kind_items, List.append_assoc]
          exact h.wild (α := Unit)
      | _ =>
          simp only [kind_runs, kind_items]
          exact h.wild (α := Unit)

theorem expr_does (htop : F.base + 8 ≤ top) (hcalls : CallsDo M Y top n r) (hfun : ∀ f, Y.func f ≤ len)
    (hρ : F.Holds ρ) (kind : Kind) (k : Nat) : Behaves M Y F top (n + 1) (kind_items A .code kind k)
      (kind_value wordValues r ρ kind >>= fun _ => .is (.next ρ)) := by
  refine Gives.does hρ fun p S c hc hin => ?_
  exact (kind_gives (by omega) hcalls hfun hρ kind k p S c hc hin).mono fun u d _ hd => ⟨u, hd⟩

/-- A declaration without a value leaves the variable as it is. -/
theorem Frame.Holds.forget (hρ : F.Holds ρ) (z : Int) : F.Holds (ρ.put z none) :=
  hρ.put rfl rfl nofun fun _ _ _ h => h

theorem behind_store {s : BitVec 64 → Answer (Vars (BitVec 64))}
    {f : Vars (BitVec 64) → Answer (After (BitVec 64))} :
    behind (x >>= fun v => s v >>= fun ρ => .is (.next ρ)) f = x >>= fun v => s v >>= f := by
  cases x with
  | is v =>
      show behind (s v >>= fun ρ => .is (.next ρ)) f = s v >>= f
      cases s v <;> rfl
  | wild => rfl
  | more => rfl

mutual

/-- The code of every statement does what it means. -/
theorem node_does (hcalls : CallsDo M Y top n r) (hloops : LoopsDo M Y A top n r) (hfun : ∀ f, Y.func f ≤ len) :
    ∀ (s : Node) (k : Nat) {F : Frame} {ρ : Vars (BitVec 64)}, F.base + 8 ≤ top → F.Holds ρ →
    Behaves M Y F top (n + 1) (node_items A .code s k) (node_runs wordValues r ρ s)
  | .null, k, F, ρ, _, hρ => by
      simp only [node_items, node_runs]
      exact .nil hρ
  | .mk _ kind _ _, k, F, ρ, htop, hρ => by
      simp only [node_items, node_runs]
      exact (kind_does hcalls hloops hfun kind k htop hρ).visit

theorem block_does (hcalls : CallsDo M Y top n r) (hloops : LoopsDo M Y A top n r) (hfun : ∀ f, Y.func f ≤ len) :
    ∀ (s : Node) (k : Nat) {F : Frame} {ρ : Vars (BitVec 64)}, F.base + 8 ≤ top → F.Holds ρ →
    Behaves M Y F top (n + 1) (block_items A .code s k) (block_runs wordValues r ρ s)
  | .null, k, F, ρ, _, hρ => by
      simp only [block_items, block_runs]
      exact .nil hρ
  | .mk _ kind _ nx, k, F, ρ, htop, hρ => by
      cases kind with
      | var dt offset value =>
          simp only [block_items, block_runs]
          by_cases hv : value.isSome = true
          · simp only [if_pos hv]
            have hset := store_does htop hρ offset
              (node_gives (A := A) (by omega : F.base ≤ top) hcalls hfun hρ value k)
            have h := hset.visit.behind fun F' ρ' hF hρ' =>
              block_does hcalls hloops hfun nx (k + allocs (node_items A .code value k ++ store_items offset))
                (hF.top_le htop) hρ'
            rw [behind_store] at h
            exact h
          · simp only [if_neg hv]
            exact (block_does hcalls hloops hfun nx _ htop (hρ.forget offset)).visit
      | _ =>
          simp only [block_items, block_runs]
          exact (kind_does hcalls hloops hfun _ k htop hρ).visit.behind fun F' ρ' hF hρ' =>
            block_does hcalls hloops hfun nx _ (hF.top_le htop) hρ'

theorem kind_does (hcalls : CallsDo M Y top n r) (hloops : LoopsDo M Y A top n r) (hfun : ∀ f, Y.func f ≤ len) :
    ∀ (kind : Kind) (k : Nat) {F : Frame} {ρ : Vars (BitVec 64)}, F.base + 8 ≤ top → F.Holds ρ →
    Behaves M Y F top (n + 1) (kind_items A .code kind k) (kind_runs wordValues r ρ kind)
  | .block body, k, F, ρ, htop, hρ => by
      simp only [kind_items, kind_runs]
      exact block_does hcalls hloops hfun body k htop hρ
  | .if_ cond then_stmt else_stmt, k, F, ρ, htop, hρ => by
      have hbase : F.base ≤ top := by omega
      simp only [kind_items, kind_runs]
      cases else_stmt with
      | null =>
          simp only [node_runs]
          exact if_does hρ (cond_branches hbase hcalls hfun hρ cond _ (k + 2))
            (node_does hcalls hloops hfun then_stmt _ htop hρ)
      | mk t kind ix nx =>
          exact if_else_does htop (cond_branches hbase hcalls hfun hρ cond _ (k + 2))
            (node_does hcalls hloops hfun then_stmt _ htop hρ)
            (node_does hcalls hloops hfun (.mk t kind ix nx) _ htop hρ)
  | .while_ cond then_stmt isfor, k, F, ρ, htop, hρ => by
      have hloop := fun F' ρ' (hF : F.Alike F') (hρ' : F'.Holds ρ') =>
        hloops (.while_ cond then_stmt isfor) k F' ρ' (hF.top_le htop) hρ'
      simp only [kind_items] at hloop
      simp only [kind_items, kind_runs]
      exact while_does htop hρ (cond_branches (by omega) hcalls hfun hρ cond _ (k + 2))
        (node_does hcalls hloops hfun then_stmt _ htop hρ) hloop
  | .assign offset op left right, k, F, ρ, htop, hρ => assign_does htop hcalls hfun hρ offset op left right k
  | .return_ value, k, F, ρ, htop, hρ => by
      simp only [kind_items, kind_runs]
      by_cases hv : value.isSome = true
      · simp only [if_pos hv]
        exact return_does htop (node_gives (by omega) hcalls hfun hρ value k)
      · simp only [if_neg hv]
        exact return_void_does htop
  | .call f args t, k, F, ρ, htop, hρ => by
      simp only [kind_runs]
      split
      · rename_i hf
        obtain ⟨hfew, hitems⟩ := callable_items (A := A) (k := k) hf t
        have hargs := args_give (A := A) (by omega : F.base ≤ top) hcalls hfun hρ args 32 k hfew
        have hassoc : (args_values wordValues r ρ args >>= fun us => r.call f us >>= fun _ =>
            (pure (.next ρ) : Answer (After (BitVec 64)))) =
            (args_values wordValues r ρ args >>= fun us => r.call f us) >>= fun _ => .is (.next ρ) := by
          cases args_values wordValues r ρ args <;> rfl
        rw [hitems, hassoc]
        refine Gives.does hρ fun p S c hc hin => ?_
        refine (call_gives (by omega) hcalls (hfun f) hargs hfew hc hin).mono fun v d _ hd => ?_
        obtain ⟨w, hw, -⟩ := hd
        exact ⟨w, hw⟩
      · exact fun _ _ _ _ _ => trivial
  | .int v, k, F, ρ, htop, hρ => expr_does htop hcalls hfun hρ (.int v) k
  | .var dt offset value, k, F, ρ, htop, hρ => expr_does htop hcalls hfun hρ (.var dt offset value) k
  | .bin op left right, k, F, ρ, htop, hρ => expr_does htop hcalls hfun hρ (.bin op left right) k
  | .func .., _, _, _, _, _ | .elem _, _, _, _, _, _ | .str _, _, _, _, _, _ | .gvar .., _, _, _, _, _
  | .pointer .., _, _, _, _, _ | .addr _, _, _, _, _, _ | .break_, _, _, _, _, _ | .continue_, _, _, _, _, _
  | .arr_access _, _, _, _, _, _ | .mem_access .., _, _, _, _, _ | .preinc _, _, _, _, _, _
  | .predec _, _, _, _, _, _ | .postinc _, _, _, _, _, _ | .postdec _, _, _, _, _, _ =>
      fun _ _ _ _ _ => trivial

end

/-! ### Functions -/

/-- A function's frame is set up. -/
theorem prologue_reaches {B lv : Nat} (argc : Nat) (h : On M p B S c)
    (hc : Code bin len Y p (prologue_items (BitVec.ofInt 32 (lv : Int) + 32) ++ xs)) (hlv : lv % 4 = 0)
    (hmax : lv + 47 < 2 ^ 31) (hargc : argc ≤ 2 ^ 27) (hhi : S + 8 + 8 * argc ≤ M.hi)
    (hroom : M.lo + lv + 56 ≤ S) (htop : S ≤ top) :
    Attains (upTo top) (fun d => ∃ (F : Frame) (S' : Nat), F.lv = lv ∧ F.argc = argc ∧ F.base = S - 8 ∧
      F.mem = d.mem ∧ d.mem = c.mem.setWord (S - 8) c.rbp ∧
      Inside M F (p + size (prologue_items (BitVec.ofInt 32 (lv : Int) + 32))) S' d) c := by
  have htopM := M.top
  obtain ⟨hreserve, hpos⟩ := frame_reserves rfl hmax
  obtain ⟨hint, hle⟩ := frame_bound rfl hpos
  unfold prologue_items at hc ⊢
  rw [if_pos hpos] at hc ⊢
  generalize hbytes : (frameBytes (BitVec.ofInt 32 (lv : Int) + 32)).toNat = bytes at *
  rw [List.append_assoc] at hc
  have hmem : Changes (M.below S) c.mem (c.mem.setWord (S - 8) c.rbp) :=
    changes_setWord fun x hx hx' => ⟨by omega, by omega⟩
  have hload := Setting.loaded h.loaded hmem fun x hx => ⟨hx.1, Nat.lt_of_lt_of_le hx.2 (by omega)⟩
  -- push rbp, then mov rbp, rsp, then sub rsp
  have h1 := (h.fetch hc).trans
    (push_eq (c := { c with rip := place M.base (p + 1) }) h.rsp (by omega) c.rbp)
  let c1 : Cpu := { c with rip := place M.base (p + 1), rsp := c.rsp - 8, mem := c.mem.setWord (S - 8) c.rbp }
  have hon1 : On M (p + 1) B (S - 8) c1 := ⟨hload, rfl, h.rbp, rsp_sub h.rsp (by omega)⟩
  let c2 : Cpu := { c1 with rip := place M.base (p + 4), rbp := c1.rsp }
  have h2 : c1.step = some c2 := hon1.fetch (Code.tail hc)
  have hon2 : On M (p + 4) (S - 8) (S - 8) c2 := ⟨hload, rfl, hon1.rsp, hon1.rsp⟩
  have hrest : Code bin len Y (p + 4) (.ins ⟨.sub_rsp, bytes⟩ :: xs) := Code.tail (Code.tail hc)
  have hfetch := hon2.fetch hrest
  have hs : sext (bytes % 256 ^ 4) = BitVec.ofNat 64 bytes := by
    have hlt : bytes < 2 ^ 32 := by omega
    have hmod : bytes % 256 ^ 4 = bytes := Nat.mod_eq_of_lt hlt
    have hvec : BitVec.ofNat 32 bytes = frameBytes (BitVec.ofInt 32 (lv : Int) + 32) := by
      rw [← hbytes, BitVec.ofNat_toNat, BitVec.setWidth_eq]
    unfold sext
    rw [hmod, hvec, BitVec.signExtend, hint, BitVec.ofInt_natCast]
  have hrsp : (c2.rsp - sext (bytes % 256 ^ 4)).toNat = S - 8 - bytes := by
    have hnat : (BitVec.ofNat 64 bytes).toNat = bytes := by
      rw [BitVec.toNat_ofNat, Nat.mod_eq_of_lt (by omega)]
    rw [hs, BitVec.toNat_sub_of_le, hon2.rsp, hnat]
    rw [BitVec.le_def, hnat, hon2.rsp]
    omega
  have hup : ∀ (d : Cpu) (T : Nat), d.rsp.toNat = T → T ≤ S → upTo top d = d.step := fun d T hd hT =>
    upTo_eq (by omega)
  refine .ahead ((hup c S h.rsp (Nat.le_refl S)).trans h1) (.ahead ((hup c1 _ hon1.rsp (by omega)).trans h2)
    (.ahead ((hup c2 _ hon2.rsp (by omega)).trans hfetch) (.here ?_)))
  refine ⟨⟨lv, argc, S - 8, S - 8 - bytes, c2.mem, by omega⟩, S - 8 - bytes, rfl, rfl, rfl, rfl, rfl,
    ⟨⟨hload, ?_, hon2.rbp, hrsp⟩, ?_, Nat.le_refl _, .refl⟩⟩
  · show place M.base (p + 4 + (Instr.bytes _).length) = _
    simp [Item.size, Instr.bytes, Op.opcode, Op.width, Nat.add_assoc]
  · exact ⟨hlv, (by omega : lv < 2 ^ 31), hargc, (by omega : M.lo + lv + 8 ≤ S - 8),
      (by omega : S - 8 + 16 + 8 * argc ≤ M.hi), Nat.sub_le _ _⟩

/-- Where the functions of the program stand, and what frames they have. -/
structure Standing (M : Setting bin len) (Y : Symbols) (A : Addresses) (gt : List Node) : Prop where
  funcs : ∀ f, Y.func f ≤ len
  code : ∀ f d, definition gt f = some d → ∃ k, Code bin len Y (Y.func f)
    (prologue_items (BitVec.ofInt 32 d.localBytes + 32) ++ node_items A .code d.body k ++ epilogue_items)
  frames : ∀ f d, definition gt f = some d → ∃ lv : Nat, d.localBytes = lv ∧ lv % 4 = 0 ∧
    lv + 47 < 2 ^ 31 ∧ lv + 64 ≤ M.room

/-- The variables of a function that is called. -/
theorem entered_holds {us : List (BitVec 64)} (hargc : F.argc = us.length)
    (hwords : ∀ i (h : i < us.length), F.mem.word (F.base + 16 + 8 * i) = us[i]) :
    F.Holds (.entered F.lv us) := by
  refine ⟨rfl, hargc, fun y v hy => ?_⟩
  simp only [Vars.entered] at hy
  split at hy
  · rename_i hpar
    obtain ⟨hlt, hv⟩ := List.getElem?_eq_some_iff.mp hy
    refine Or.inr ⟨paramIndex y, by omega, ?_, (hwords _ hlt).trans hv⟩
    unfold paramIndex
    omega
  · cases hy

/-- The function that was left is the one that was entered. -/
theorem Left.cameBack {argc : Nat} {v : Option (BitVec 64)}
    (h : Left M (S - 8) argc (c.mem.setWord (S - 8) c.rbp) d) (hlo : M.lo + 8 ≤ S)
    (hrax : ∀ u, v = some u → d.rax = u) : CameBack M S argc c v d := by
  refine ⟨?_, ?_, ?_, ?_, hrax⟩
  · rw [h.rip, word_setWord_out (by omega), Nat.sub_add_cancel (by omega)]
  · rw [h.rbp, word_setWord]
  · rw [h.rsp]
    omega
  · refine (changes_setWord fun x hx hx' => ⟨by omega, by omega⟩).trans (h.mem.mono fun x hx => ?_)
    unfold Setting.frame at hx
    exact ⟨by omega, by omega⟩

/-- A function does what a call of it means. -/
theorem function_does (hst : Standing M Y A gt) (hcalls : CallsDo M Y top n r)
    (hloops : LoopsDo M Y A top n r) {f : Name} {us : List (BitVec 64)} {B : Nat}
    (hon : On M (Y.func f) B S c) (hroom : M.lo + M.room ≤ S + 8) (hhi : S + 8 + 8 * us.length ≤ M.hi)
    (htop : S ≤ top) (hwords : ∀ i (h : i < us.length), c.mem.word (S + 8 + 8 * i) = us[i]) :
    Fulfils (upTo top) (n + 1) M.Low (CameBack M S us.length c) (call_means wordValues r gt f us) c := by
  unfold call_means
  cases hdef : definition gt f with
  | none => trivial
  | some d =>
      dsimp only
      split
      case isFalse => trivial
      case isTrue hargc =>
        obtain ⟨k, hcode⟩ := hst.code f d hdef
        obtain ⟨lv, hlv, h4, hmax, hneed⟩ := hst.frames f d hdef
        have hmargin := M.margin
        have hmaxM := M.top
        rw [hlv] at hcode ⊢
        have hpro : Code bin len Y (Y.func f) (prologue_items (BitVec.ofInt 32 (lv : Int) + 32) ++
            (node_items A .code d.body k ++ epilogue_items)) := by rwa [← List.append_assoc]
        refine .after ((prologue_reaches us.length hon hpro h4 hmax (by omega) hhi (by omega)
          htop).mono fun _ => Or.inr) fun e he => ?_
        obtain ⟨F, S', rfl, hargc', hbase, hFmem, hmem, hin⟩ := he
        have hρ : F.Holds (.entered F.lv us) := by
          refine entered_holds hargc' fun i hi => ?_
          rw [hFmem, hmem, hbase, word_setWord_out (by omega), ← hwords i hi]
          congr 1
          omega
        have htop' : F.base + 8 ≤ top := by omega
        have hbody := node_does hcalls hloops hst.funcs d.body k htop' hρ
        rw [Int.toNat_natCast]
        refine (hbody _ S' e hcode.left.right hin).bind fun b g _ hg => ?_
        cases b with
        | next ρ' =>
            obtain ⟨F', S'', -, hF, -, hin', hch⟩ := hg
            have hepi : Code bin len Y (Y.func f + size (prologue_items (BitVec.ofInt 32 (F.lv : Int) + 32)) +
                size (node_items A .code d.body k)) (epilogue_items ++ []) := by
              have := hcode.right
              rwa [size_append, ← Nat.add_assoc, ← List.append_nil epilogue_items] at this
            refine Attains.mono (epilogue_reaches (hF.top_le htop') hin' hepi) fun i hi => Or.inr ?_
            have hleft := hi.1
            rw [hF.base, hF.argc] at hleft
            have hleft := hleft.after hch
            rw [hbase, hargc', hmem] at hleft
            exact hleft.cameBack (by omega) nofun
        | left v =>
            obtain ⟨hleft, hrax⟩ := hg
            rw [hbase, hargc', hmem] at hleft
            exact .here (hleft.cameBack (by omega) hrax)

/-- For any fuel the functions and the loops of the program do what they mean. -/
theorem program_does (hst : Standing M Y A gt) (top : Nat) : ∀ n,
    CallsDo M Y top n (meaning wordValues gt n) ∧ LoopsDo M Y A top n (meaning wordValues gt n) := by
  intro n
  induction n with
  | zero => exact ⟨fun _ _ _ _ _ _ _ _ _ _ => trivial, fun _ _ _ _ _ _ _ _ _ _ _ => trivial⟩
  | succ n ih =>
      obtain ⟨hcalls, hloops⟩ := ih
      refine ⟨fun f us B S c hon hroom hhi htop hwords => ?_, fun kind k F ρ htop hρ => ?_⟩
      · exact function_does hst hcalls hloops hon hroom hhi htop hwords
      · exact kind_does hcalls hloops hst.funcs kind k htop hρ

/-! ### Compiled programs -/

theorem definition_split {f : Name} {d : Node} (h : definition gt f = some d) :
    ∃ pre post, gt = pre ++ d :: post ∧ d.funcName = some f ∧ ∀ q ∈ pre, q.funcName ≠ some f := by
  unfold definition at h
  split at h
  · rename_i d' hone
    split at h
    · obtain rfl := Option.some.inj h
      obtain ⟨pre, post, hgt, hpre, hd, -⟩ := List.filter_eq_cons_iff.mp hone
      exact ⟨pre, post, hgt, of_decide_eq_true hd, fun q hq hqf => hpre q hq (decide_eq_true hqf)⟩
    · cases h
  · cases h

/-- The frame of a function that is not too large, in its own bytes and with what the stack has. -/
def Node.FrameFits (room : Nat) (q : Node) : Prop :=
  ∃ lv : Nat, q.localBytes = lv ∧ lv % 4 = 0 ∧ lv + 47 < 2 ^ 31 ∧ lv + 64 ≤ room

section

variable (A gt) (mod_name : Option Name) (mod_type : BitVec 32) (g : Gen)

/-- The functions of a compiled program stand in its binary. -/
theorem compiled_standing (h : Fits (listing A gt))
    (hclean : noTest (listing A gt) ∨ ∀ i, (g.fixups i).is_func_call = false)
    (M : Setting (codegen_x86_emit A gt mod_name mod_type g).1
      (codegen_x86_emit A gt mod_name mod_type g).2.1)
    (hframes : ∀ q ∈ gt, q.FrameFits M.room) : Standing M (moduleSymbols A gt g) A gt := by
  have hcode : Code (codegen_x86_emit A gt mod_name mod_type g).1
      (codegen_x86_emit A gt mod_name mod_type g).2.1 (moduleSymbols A gt g) 64 (listing A gt) :=
    ⟨module_assembled mod_name mod_type g h hclean, module_end mod_name mod_type g h.roomy⟩
  refine ⟨fun f => ?_, fun f d hdef => ?_, fun f d hdef => ?_⟩
  · refine Nat.le_trans ?_ hcode.inside
    show ((module_code A gt g).find_func_offset f).toNat ≤ _
    have hfuncs : (module_code A gt g).func_table = entries 64 (listing A gt) := by
      rw [module_code_eq, emit_bytes_funcs, nop_align_funcs, items_funcs (reset_tracks g) h.rooms]
      rfl
    unfold find_func_offset
    rw [hfuncs]
    cases hf : (entries 64 (listing A gt)).find? fun e => e.name = f with
    | none => exact Nat.zero_le _
    | some e => exact Nat.le_of_lt (table_entry A gt 1 64 e (List.mem_of_find?_eq_some hf)).2
  · obtain ⟨pre, post, rfl, hd, hfirst⟩ := definition_split hdef
    have hplace := (func_place g h.roomy hd).2.2.mpr hfirst
    simp only [listing, table_append, table_items] at hcode
    have hentry := hcode.right.left
    rw [← hplace] at hentry
    cases d with
    | null => cases hd
    | mk t kind ix nx =>
        cases kind with
        | func name args body ret localvarbyte argcount =>
            simp only [entry_items, List.append_assoc] at hentry
            have hbody := hentry.right
            rw [← List.append_assoc] at hbody
            exact ⟨_, hbody⟩
        | _ => cases hd
  · obtain ⟨pre, post, rfl, -, -⟩ := definition_split hdef
    exact hframes d (List.mem_append_right _ (List.mem_cons_self ..))

/-- A call of a function that stands in a binary carries out what it means in C. -/
theorem standing_means {bin : Store} {len : Nat} {M : Setting bin len} {Y : Symbols} (hst : Standing M Y A gt)
    (f : Name) (args : List Int) (B S : Nat) (c : Cpu) (hon : On M (Y.func f) B S c) (hroom : M.lo + M.room ≤ S + 8)
    (hhi : S + 8 + 8 * args.length ≤ M.hi)
    (hargs : ∀ i (hi : i < args.length), Word args[i] (c.mem.word (S + 8 + 8 * i))) :
    (∀ n v, (meaning cValues gt n).call f args = .is v → Attains Cpu.step (fun d => M.Low d ∨
      ∃ w, CameBack M S args.length c w d ∧ ∀ z, v = some z → d.rax.toInt = z) c) ∧
    ((∀ n, (meaning cValues gt n).call f args = .more) → ∀ n, Leads (upTo S) n M.Low c) := by
  let us := List.ofFn fun i : Fin args.length => c.mem.word (S + 8 + 8 * i)
  have hlen : us.length = args.length := List.length_ofFn
  have hword : List.Forall₂ Word args us := by
    refine List.forall₂_iff_get.mpr ⟨hlen.symm, fun i hi hi' => ?_⟩
    have := hargs i hi
    simpa [us] using this
  have hruns := fun n => (program_does hst S n).1 f us B S c hon hroom (by omega) (Nat.le_refl S)
    fun i hi => by simp [us]
  have hrefines := fun n => (meaning_refines cValues_under gt n).call f args us hword
  refine ⟨fun n v hv => ?_, fun hmore n => ?_⟩
  · have hn := hrefines n
    rw [hv] at hn
    obtain ⟨w, hw, hstood⟩ := hn.eq_is
    have hrun := hruns n
    rw [hw] at hrun
    refine (Attains.mono hrun fun d hd => hd.imp_right fun hback => ⟨w, hlen ▸ hback, fun z hz => ?_⟩).unguard
    rw [hz] at hstood
    obtain ⟨u, rfl, hu⟩ := hstood
    rw [hback.rax u rfl]
    exact hu.1
  · have hn := hrefines n
    rw [hmore n] at hn
    have hrun := hruns n
    rw [hn.eq_more] at hrun
    exact hrun

end

/-- `a` and `t`, a parameter and a local variable. -/
def useA : Node := .mk 0 (.var K_INT (-12) .null) .null .null

def useT : Node := .mk 0 (.var K_INT 0 .null) .null .null

/-- `while (a > 0) { t = t + a; a = a - 1; }` -/
def sumLoop : Kind :=
  .while_ (.mk 0 (.bin '>'.toNat useA (number 0)) .null .null)
    (.mk 0 (.block (.mk 0 (.assign 0 '='.toNat useT (.mk 0 (.bin '+'.toNat useT useA) .null .null)) .null
      (.mk 0 (.assign 0 '='.toNat useA (.mk 0 (.bin '-'.toNat useA (number 1)) .null .null)) .null .null)))
      .null .null) 0

/-- `int f(int a) { int t = 0; while (a > 0) { t = t + a; a = a - 1; } return t; }` -/
def sumF : List Node :=
  [.mk 0 (.func ['f'] (.mk 0 (.var K_INT (-12) .null) .null .null)
    (.mk 0 (.block (.mk 0 (.var K_INT 0 (number 0)) .null (.mk 0 sumLoop .null
      (.mk 0 (.return_ useT) .null .null)))) .null .null) K_INT 4 1) .null .null]

example : (meaning cValues sumF 9).call ['f'] [8] = .is (some 36) := by decide

theorem sumF_fits : Fits (listing .zero sumF) where
  rooms := by decide
  strings := by decide
  calls name hname := by
    have hno : (listing .zero sumF).all fun i => match i with | .call _ => false | _ => true := by decide
    exact Bool.noConfusion (List.all_eq_true.mp hno _ hname)

theorem sum_len : (codegen_x86_emit .zero sumF none 0 .zero).2.1 ≤ 65536 := binary_len ..

theorem sum_small : (codegen_x86_emit .zero sumF none 0 .zero).2.1 < 2 ^ 31 :=
  Nat.lt_of_le_of_lt sum_len (by decide)

theorem sum_apart : 0 + (codegen_x86_emit .zero sumF none 0 .zero).2.1 ≤ 65536 ∨ 131072 ≤ 0 := by
  rw [Nat.zero_add]
  exact Or.inl sum_len

theorem sum_top : 131072 < 2 ^ 64 := by decide

theorem sum_margin : 16 ≤ 128 := by decide

/-- The program at address 0, and a stack behind it. -/
def sumSetting : Setting (codegen_x86_emit .zero sumF none 0 .zero).1
    (codegen_x86_emit .zero sumF none 0 .zero).2.1 where
  base := 0
  lo := 65536
  hi := 131072
  room := 128
  small := sum_small
  apart := sum_apart
  top := sum_top
  margin := sum_margin

/-- The processor enters `f`, with the argument 4. -/
def sumCpu : Cpu :=
  { rax := 0, rbx := 0, rcx := 0, rdx := 0, rsi := 0, rdi := 0, rbp := 131000, rsp := 130960
    r8 := 0, r9 := 0, rip := place 0 ((moduleSymbols .zero sumF .zero).func ['f']), zf := false, sf := false
    of := false, mem := (codegen_x86_emit .zero sumF none 0 .zero).1.setWord 130968 4 }

theorem sumCpu_enters : On sumSetting ((moduleSymbols .zero sumF .zero).func ['f']) 131000 130960 sumCpu := by
  have hbase : sumSetting.base = 0 := rfl
  have hlen := binary_len .zero sumF none 0 .zero
  refine ⟨⟨fun x hx => ?_, ?_⟩, ?_, rfl, rfl⟩
  · rw [hbase, Nat.zero_add]
    exact setWord_out (Or.inl (Nat.lt_of_lt_of_le hx (Nat.le_trans hlen (by decide))))
  · exact Nat.lt_of_le_of_lt (Nat.add_le_add_left hlen _) (by decide)
  · rw [hbase, sumCpu]

theorem sumCpu_argument : Word 4 (sumCpu.mem.word 130968) := by
  rw [show sumCpu.mem.word 130968 = 4 from word_setWord]
  exact ⟨by decide, by decide⟩

end Eke
