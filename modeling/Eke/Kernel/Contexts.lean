/-
Contexts: what a task finds when it runs again.

The kernel's statics, the processor and the memory together, over any interleaving of tasks at work,
interrupts of every vector, new tasks and swaps of the scheduler.  A task that does not run has its
registers in a frame on its own stack.  Nothing but its own work changes what that frame holds or
what lies above it, through however many other tasks the processor goes in between, and that is what
makes an interrupt invisible to the program it interrupts.
-/
import Eke.Kernel.Interrupts
import Eke.Kernel.Scheduling

namespace Eke

open Store Kernel

namespace Interrupts

open Gpr Line

/-! ### The handler -/

/-- `isr_handler`: the frame to go on with, or nothing where the kernel halts. -/
def isr_handler (k : Kernel) (m : Store) (regs : Registers) : Option (Registers × Kernel) :=
  let int_no := m.word (regs.addr + INT_NO)
  if 32 ≤ int_no ∧ int_no ≤ 47 then
    if int_no = 32 then some (k.schedule_next_task regs) else some (regs, k)
  else if int_no < 32 then k.exception regs
  else some (regs, k)

/-- The fields are written, each at its offset. -/
def writeAll (fields : List (Nat × BitVec 64)) (a : Nat) (m : Store) : Store :=
  fields.foldl (fun m f => m.setWord (a + f.1) f.2) m

/-- What `create_task` writes to the frame at `a`. -/
def firstFrame (entry_point : BitVec 64) (a : Nat) : List (Nat × BitVec 64) :=
  [r15, r14, r13, r12, r11, r10, r9, r8, rbp, rdi, rsi, rdx, rcx, rbx, rax].map (fun r => (r.offset, 0)) ++
    [(INT_NO, 32), (ERR_CODE, 0), (RIP, entry_point), (CS, 0x08), (RFLAGS, 0x202),
      (RSP, BitVec.ofNat 64 a), (SS, 0x10)]

/-- The registers a task starts with. -/
def Core.first (entry_point : BitVec 64) (a : Nat) : Core :=
  { gpr := fun _ => 0, rip := entry_point, cs := 0x08, rflags := 0x202, rsp := BitVec.ofNat 64 a, ss := 0x10 }

/-! ### The whole system -/

/-- `stack` gives the bounds of each task's stack. -/
structure System where
  kernel : Kernel
  cpu : Machine
  stack : Nat → Nat × Nat

namespace System

inductive Event
  /-- The running task gets to these registers and this memory. -/
  | work (c : Core) (m : Store)
  /-- An interrupt. The code of the handler leaves these general registers and this memory. -/
  | interrupt (n : Nat) (err : BitVec 64) (gpr : Gpr → BitVec 64) (m : Store)
  /-- `create_task`, the process structure at `p` and the stack page at `page`. -/
  | create (entry_point : BitVec 64) (p page : Nat)
  | swap

/-- Up to the call of the handler. -/
def entry (S : System) (n : Nat) (err : BitVec 64) : Machine :=
  execAll id (isr n ++ pushed.map push ++ [mov_rsp_rdi]) (deliver n err S.cpu)

/-- What the handler answers there. -/
def answer (S : System) (n : Nat) (err : BitVec 64) : Option (Registers × Kernel) :=
  isr_handler S.kernel (S.entry n err).2 ⟨S.kernel.curr_task, ((S.entry n err).1.gpr rdi).toNat⟩

/-- Where the first frame of a task goes. -/
def firstAt (page : Nat) : Nat := page + 4096 - FRAME

/-- One event. -/
def next (S : System) : Event → Option System
  | .work c m => some { S with cpu := (c, m) }
  | .interrupt n err gpr m => do
    let (regs, kernel) ← S.answer n err
    let handler : Machine → Machine := fun s =>
      ({ s.1 with gpr := fun r => if r = rax then BitVec.ofNat 64 regs.addr else gpr r }, m)
    some { S with kernel, cpu := Interrupts.interrupt handler n err S.cpu }
  | .create entry_point p page =>
    some
      { kernel := S.kernel.create_task p (firstAt page)
        cpu := (S.cpu.1, writeAll (firstFrame entry_point (firstAt page)) (firstAt page) S.cpu.2)
        stack := fun q => if q = p then (page, page + 4096) else S.stack q }
  | .swap => some { S with kernel := S.kernel.swap_scheduler }

/-- The room on a stack within which a task may be interrupted. -/
def Room (stack : Nat × Nat) (c : Core) : Prop := stack.1 + 191 ≤ c.rsp.toNat ∧ c.rsp.toNat ≤ stack.2

/-- An address is on a task's stack. -/
def On (S : System) (p x : Nat) : Prop := (S.stack p).1 ≤ x ∧ x < (S.stack p).2

/-- An event can happen.  A task writes to no other task's stack and does not run out of its own; the
handler works on the stack of the interrupted task, below the frame; a new stack is a page not in use. -/
def Event.Possible (S : System) : Event → Prop
  | .work c m =>
      Room (S.stack S.kernel.curr_task) c ∧
        ∀ p ∈ S.kernel.tasks, p ≠ S.kernel.curr_task → ∀ x, S.On p x → m x = S.cpu.2 x
  | .interrupt n err _ m =>
      n < 256 ∧ ∀ p ∈ S.kernel.tasks, ∀ x, S.On p x → (p = S.kernel.curr_task → S.cpu.1.frame ≤ x) →
        m x = (S.entry n err).2 x
  | .create _ p page =>
      p ∉ S.kernel.tasks ∧ page + 4096 < 2 ^ 64 ∧
        ∀ q ∈ S.kernel.tasks, (S.stack q).2 ≤ page ∨ page + 4096 ≤ (S.stack q).1
  | .swap => True

/-- Whose work an event is. -/
def Event.worker (S : System) : Event → Option Nat
  | .work _ _ => some S.kernel.curr_task
  | _ => none

/-- Runs. -/
def Run : System → System → Prop :=
  Relation.ReflTransGen fun S S' => ∃ e : Event, e.Possible S ∧ S.next e = some S'

/-- Runs in which a task does no work. -/
def Without (p : Nat) : System → System → Prop :=
  Relation.ReflTransGen fun S S' => ∃ e : Event, e.Possible S ∧ S.next e = some S' ∧ e.worker S ≠ some p

/-- Start-up, the kernel's stack being the one the boot code set up. -/
def boot (k : Kernel) (cpu : Machine) (stack : Nat × Nat) : System :=
  { kernel := k.boot, cpu, stack := fun _ => stack }

/-- The registers a task has: the processor's, or those in its frame. -/
def view (S : System) (p : Nat) : Core :=
  if p = S.kernel.curr_task then S.cpu.1 else load S.cpu.2 (S.kernel.procs p).reg.addr

/-- A task is as it was: its registers, and its stack from the stack pointer up. -/
structure Untouched (p : Nat) (S S' : System) : Prop where
  core : S'.view p = S.view p
  stack : S'.stack p = S.stack p
  memory : ∀ x, (S.view p).rsp.toNat ≤ x → S.On p x → S'.cpu.2 x = S.cpu.2 x

/-! ### Frames that are written -/

variable {S S' : System} {p q : Nat}

theorem writeAll_out : ∀ (fields : List (Nat × BitVec 64)) {a x : Nat} {m : Store},
    (∀ f ∈ fields, x < a + f.1 ∨ a + f.1 + 8 ≤ x) → writeAll fields a m x = m x := by
  intro fields
  induction fields with
  | nil => intro a x m _; rfl
  | cons f fields ih =>
      intro a x m h
      refine (ih fun g hg => h g (List.mem_cons_of_mem _ hg)).trans ?_
      exact setWord_out (h f List.mem_cons_self)

/-- Fields that do not overlap keep what was written to them. -/
theorem writeAll_word : ∀ (fields : List (Nat × BitVec 64)) {a : Nat} {m : Store},
    fields.Pairwise (fun f g => f.1 + 8 ≤ g.1 ∨ g.1 + 8 ≤ f.1) →
    ∀ f ∈ fields, (writeAll fields a m).word (a + f.1) = f.2 := by
  intro fields
  induction fields with
  | nil => intro a m _ f hf; cases hf
  | cons g fields ih =>
      intro a m h f hf
      obtain ⟨hg, h⟩ := List.pairwise_cons.mp h
      rcases List.mem_cons.mp hf with rfl | hf
      · have hkeep : (writeAll fields a (m.setWord (a + f.1) f.2)).word (a + f.1) =
            (m.setWord (a + f.1) f.2).word (a + f.1) :=
          word_congr fun k hk => writeAll_out fields fun g hg' => by
            have := hg g hg'
            omega
        exact hkeep.trans word_setWord
      · exact ih h f hf

/-- The frame of a new task holds the registers it starts with. -/
theorem load_first (entry_point : BitVec 64) (a : Nat) (m : Store) :
    load (writeAll (firstFrame entry_point a) a m) a = Core.first entry_point a := by
  have hword : ∀ f ∈ firstFrame entry_point a,
      (writeAll (firstFrame entry_point a) a m).word (a + f.1) = f.2 :=
    writeAll_word _ (List.Pairwise.of_map Prod.fst (fun _ _ h => h)
      (show List.Pairwise (fun f g => f + 8 ≤ g ∨ g + 8 ≤ f) ((firstFrame entry_point a).map Prod.fst) by
        show List.Pairwise _ [0, 8, 16, 24, 32, 40, 48, 56, 64, 72, 80, 88, 96, 104, 112,
          120, 128, 136, 144, 152, 160, 168]
        decide))
  have hgpr : (fun r : Gpr => (writeAll (firstFrame entry_point a) a m).word (a + r.offset)) = fun _ => 0 := by
    funext r
    refine hword (r.offset, 0) (List.mem_append_left _ (List.mem_map_of_mem ?_))
    cases r <;> decide
  have hrest : ∀ f ∈ [(INT_NO, (32 : BitVec 64)), (ERR_CODE, 0), (RIP, entry_point), (CS, 0x08),
      (RFLAGS, 0x202), (RSP, BitVec.ofNat 64 a), (SS, 0x10)],
      (writeAll (firstFrame entry_point a) a m).word (a + f.1) = f.2 := fun f hf =>
    hword f (List.mem_append_right _ hf)
  unfold load Core.first
  rw [hgpr, hrest (RIP, entry_point) (by simp), hrest (CS, 0x08) (by simp),
    hrest (RFLAGS, 0x202) (by simp), hrest (RSP, BitVec.ofNat 64 a) (by simp), hrest (SS, 0x10) (by simp)]

/-- It is written inside the frame. -/
theorem writeAll_first_out {entry_point : BitVec 64} {a x : Nat} {m : Store} (h : x < a ∨ a + FRAME ≤ x) :
    writeAll (firstFrame entry_point a) a m x = m x := by
  refine writeAll_out _ fun f hf => ?_
  have hoff : ∀ o ∈ (firstFrame entry_point a).map Prod.fst, o + 8 ≤ FRAME := by
    show ∀ o ∈ [0, 8, 16, 24, 32, 40, 48, 56, 64, 72, 80, 88, 96, 104, 112, 120, 128, 136, 144, 152, 160, 168], _
    decide
  have := hoff f.1 (List.mem_map_of_mem hf)
  omega

/-! ### Scheduling and frames -/

theorem pick_loop_procs (current : Nat) : ∀ (n : Nat) (k : Kernel), (pick_loop current n k).2.procs = k.procs := by
  intro n
  induction n with
  | zero => exact fun _ => rfl
  | succ n ih =>
      intro k
      rw [pick_loop]
      dsimp only
      split
      · split
        · rfl
        · exact ih _
      · exact ih _

/-- Entering the scheduler stores the frame it is given, and no other. -/
theorem schedule_reg (k : Kernel) (regs : Registers) (p : Nat) :
    ((k.schedule_next_task regs).2.procs p).reg = if p = k.curr_task then regs else (k.procs p).reg := by
  have hprocs : (k.schedule_next_task regs).2.procs =
      (k.modify k.curr_task fun q => { q with reg := regs }).procs := by
    show (rr_pick_next (k.modify k.curr_task fun q => { q with reg := regs }) k.curr_task).2.procs = _
    unfold rr_pick_next
    split
    · rfl
    · exact pick_loop_procs _ _ _
  rw [hprocs]
  by_cases hp : p = k.curr_task
  · rw [hp, modify_same, if_pos rfl]
  · rw [modify_other _ hp, if_neg hp]

/-- What the handler answers: the interrupted task goes on, or the scheduler was entered. -/
structure Answers (k : Kernel) (regs : Registers) (r : Registers × Kernel) : Prop where
  sched : Sched r.2
  tasks : r.2.tasks = k.tasks
  frame : r.2 = k ∧ r.1 = regs ∨
    r.1 = (r.2.procs r.2.curr_task).reg ∧
      ∀ p, (r.2.procs p).reg = if p = k.curr_task then regs else (k.procs p).reg

theorem isr_handler_answers {k : Kernel} (h : Sched k) {m : Store} {regs : Registers}
    (hregs : regs.owner = k.curr_task) {r : Registers × Kernel} (hr : isr_handler k m regs = some r) :
    Answers k regs r := by
  have hself : Answers k regs (regs, k) := ⟨h, rfl, Or.inl ⟨rfl, rfl⟩⟩
  unfold isr_handler at hr
  dsimp only at hr
  split at hr
  · split at hr
    · obtain rfl := Option.some.inj hr
      obtain ⟨hres, hsched⟩ := tick_step h hregs
      exact ⟨hsched, hres.tasks, Or.inr ⟨hres.frame, schedule_reg k regs⟩⟩
    · obtain rfl := Option.some.inj hr
      exact hself
  · split at hr
    · by_cases hpid : (k.procs k.curr_task).pid ≠ 0
      · obtain ⟨r', heq, hres, hsched⟩ := fault_step h hregs hpid
        obtain rfl := Option.some.inj (heq.symm.trans hr)
        refine ⟨hsched, hres.tasks, Or.inr ⟨hres.frame, fun p => ?_⟩⟩
        have hr' : r' = (k.modify k.curr_task fun p => { p with state := 0 }).schedule_next_task regs :=
          (Option.some.inj ((if_pos hpid).symm.trans heq)).symm
        rw [hr', schedule_reg]
        show (if p = k.curr_task then regs else ((k.modify k.curr_task _).procs p).reg) = _
        by_cases hp : p = k.curr_task
        · rw [if_pos hp, if_pos hp]
        · rw [if_neg hp, if_neg hp, modify_other _ hp]
      · exact absurd (hr.symm.trans (if_neg hpid)) (Option.some_ne_none _)
    · obtain rfl := Option.some.inj hr
      exact hself

/-! ### The invariant -/

/-- What every state after start-up satisfies: the stacks lie apart, and the frame of a task that does
not run lies on its stack. -/
structure Consistent (S : System) : Prop where
  sched : Sched S.kernel
  apart : ∀ p ∈ S.kernel.tasks, ∀ q ∈ S.kernel.tasks, p ≠ q →
    (S.stack p).2 ≤ (S.stack q).1 ∨ (S.stack q).2 ≤ (S.stack p).1
  bound : ∀ p ∈ S.kernel.tasks, (S.stack p).2 < 2 ^ 64
  room : ∀ p ∈ S.kernel.tasks, Room (S.stack p) (S.view p)
  frame : ∀ p ∈ S.kernel.tasks, p ≠ S.kernel.curr_task →
    (S.stack p).1 ≤ (S.kernel.procs p).reg.addr ∧ (S.kernel.procs p).reg.addr + FRAME ≤ (S.stack p).2

theorem view_curr (S : System) : S.view S.kernel.curr_task = S.cpu.1 := if_pos rfl

theorem view_other (h : p ≠ S.kernel.curr_task) : S.view p = load S.cpu.2 (S.kernel.procs p).reg.addr := if_neg h

theorem Untouched.refl (p : Nat) (S : System) : Untouched p S S := ⟨rfl, rfl, fun _ _ _ => rfl⟩

theorem Untouched.trans {S'' : System} (h : Untouched p S S') (h' : Untouched p S' S'') : Untouched p S S'' := by
  refine ⟨h'.core.trans h.core, h'.stack.trans h.stack, fun x hx hon => ?_⟩
  have hon' : S'.On p x := by
    show (S'.stack p).1 ≤ x ∧ x < (S'.stack p).2
    rw [h.stack]
    exact hon
  exact (h'.memory x (by rw [h.core]; exact hx) hon').trans (h.memory x hx hon)

/-- Two tasks have no address in common. -/
theorem Consistent.elsewhere (h : Consistent S) (hp : p ∈ S.kernel.tasks) (hq : q ∈ S.kernel.tasks) (hpq : p ≠ q)
    {x : Nat} (hx : S.On p x) : x < (S.stack q).1 ∨ (S.stack q).2 ≤ x := by
  have hx' : (S.stack p).1 ≤ x ∧ x < (S.stack p).2 := hx
  have := h.apart p hp q hq hpq
  omega

/-! ### One event -/

/-- What an event leaves. -/
structure Carried (S S' : System) (worker : Option Nat) : Prop where
  consistent : Consistent S'
  known : ∀ p ∈ S.kernel.tasks, p ∈ S'.kernel.tasks
  untouched : ∀ p ∈ S.kernel.tasks, worker ≠ some p → Untouched p S S'

theorem work_step (h : Consistent S) {c : Core} {m : Store} (he : (Event.work c m).Possible S) :
    Carried S { S with cpu := (c, m) } (some S.kernel.curr_task) := by
  obtain ⟨hroom, hmem⟩ := he
  have hview : ∀ p ∈ S.kernel.tasks, p ≠ S.kernel.curr_task →
      System.view { S with cpu := (c, m) } p = S.view p := by
    intro p hp hc
    rw [view_other hc, view_other (S := { S with cpu := (c, m) }) hc]
    obtain ⟨hlo, hhi⟩ := h.frame p hp hc
    exact load_congr fun x hx hx' => hmem p hp hc x ⟨Nat.le_trans hlo hx, Nat.lt_of_lt_of_le hx' hhi⟩
  refine ⟨⟨h.sched, h.apart, h.bound, fun p hp => ?_, h.frame⟩, fun p hp => hp, fun p hp hc => ?_⟩
  · by_cases hc : p = S.kernel.curr_task
    · rw [hc]
      show Room _ (System.view { S with cpu := (c, m) } _)
      rw [show System.view { S with cpu := (c, m) } S.kernel.curr_task = c from view_curr _]
      exact hroom
    · rw [hview p hp hc]
      exact h.room p hp
  · have hc' : p ≠ S.kernel.curr_task := fun hpc => hc (congrArg some hpc.symm)
    exact ⟨hview p hp hc', rfl, fun x _ hon => hmem p hp hc' x hon⟩

theorem swap_event (h : Consistent S) : Carried S { S with kernel := S.kernel.swap_scheduler } none := by
  obtain ⟨l, hl⟩ := h.sched.master
  have hw := swap_walked hl (by rw [h.sched.kernel.1]; exact Nat.two_pos)
  have htasks : S.kernel.swap_scheduler.tasks = S.kernel.tasks := by
    rw [hw.tasks, rr_add_task_tasks]
    rfl
  have hcurr : S.kernel.swap_scheduler.curr_task = S.kernel.curr_task := by
    rw [hw.curr, rr_add_task_curr]
    rfl
  have hreg : ∀ p, (S.kernel.swap_scheduler.procs p).reg = (S.kernel.procs p).reg := fun p =>
    (swap_same h.sched p).2.2
  have hview : ∀ p, System.view { S with kernel := S.kernel.swap_scheduler } p = S.view p := by
    intro p
    unfold System.view
    dsimp only
    rw [hcurr, hreg]
  refine ⟨⟨swap_step h.sched, ?_, ?_, fun p hp => ?_, fun p hp hc => ?_⟩, fun p hp => ?_, fun p _ _ => ?_⟩
  · show ∀ p ∈ S.kernel.swap_scheduler.tasks, ∀ q ∈ S.kernel.swap_scheduler.tasks, _
    rw [htasks]
    exact h.apart
  · show ∀ p ∈ S.kernel.swap_scheduler.tasks, _
    rw [htasks]
    exact h.bound
  · rw [hview]
    exact h.room p (htasks ▸ hp)
  · show _ ≤ (S.kernel.swap_scheduler.procs p).reg.addr ∧ _
    rw [hreg]
    exact h.frame p (htasks ▸ hp) (hcurr ▸ hc)
  · show p ∈ S.kernel.swap_scheduler.tasks
    rw [htasks]
    exact hp
  · exact ⟨hview p, rfl, fun _ _ _ => rfl⟩

theorem firstAt_add (page : Nat) : firstAt page + FRAME = page + 4096 := by
  show page + 4096 - 176 + 176 = _
  omega

theorem firstAt_le (page : Nat) : page + 191 ≤ firstAt page := by
  show _ ≤ page + 4096 - 176
  omega

/-- A new task, and what it finds when it first runs. -/
theorem create_event (h : Consistent S) {entry_point : BitVec 64} {p page : Nat}
    (he : (Event.create entry_point p page).Possible S) {S' : System}
    (hS' : S.next (.create entry_point p page) = some S') :
    Carried S S' none ∧ p ∈ S'.kernel.tasks ∧ S'.view p = Core.first entry_point (firstAt page) := by
  obtain ⟨hnew, hpage, hfree⟩ := he
  obtain rfl := Option.some.inj hS'
  obtain ⟨l, hl⟩ := h.sched.master
  obtain ⟨d, t, hd, htail⟩ := hl.last
  obtain ⟨-, -, -, -, -, htasks, hcurr, -, -⟩ := @create_task_rest S.kernel p t (firstAt page) htail
  have ht : t ≠ p := fun hc => hnew (hc ▸ hl.known t (by rw [hd]; simp))
  have hne : ∀ q ∈ S.kernel.tasks, q ≠ p := fun q hq hc => hnew (hc ▸ hq)
  have hreg : ∀ q, q ≠ p → ((S.kernel.create_task p (firstAt page)).procs q).reg = (S.kernel.procs q).reg :=
    fun q hq => (create_task_state hl hnew hq).2.2
  have hregp : ((S.kernel.create_task p (firstAt page)).procs p).reg = ⟨p, firstAt page⟩ := by
    rw [create_task_procs htail ht, if_neg (Ne.symm ht), if_pos rfl]
  let S' : System :=
    { kernel := S.kernel.create_task p (firstAt page)
      cpu := (S.cpu.1, writeAll (firstFrame entry_point (firstAt page)) (firstAt page) S.cpu.2)
      stack := fun q => if q = p then (page, page + 4096) else S.stack q }
  have hin := firstAt_add page
  have hlow := firstAt_le page
  have hstackp : S'.stack p = (page, page + 4096) := if_pos rfl
  have hstack : ∀ q ∈ S.kernel.tasks, S'.stack q = S.stack q := fun q hq => if_neg (hne q hq)
  have hmem : ∀ q ∈ S.kernel.tasks, ∀ x, S.On q x → S'.cpu.2 x = S.cpu.2 x := by
    intro q hq x hx
    have hx' : (S.stack q).1 ≤ x ∧ x < (S.stack q).2 := hx
    refine writeAll_first_out ?_
    have := hfree q hq
    omega
  have hcurrp : p ≠ S.kernel.curr_task := fun hc => hne _ h.sched.curr.1 hc.symm
  have hview : ∀ q ∈ S.kernel.tasks, S'.view q = S.view q := by
    intro q hq
    by_cases hc : q = S.kernel.curr_task
    · rw [hc, view_curr]
      show (if S.kernel.curr_task = (S.kernel.create_task p (firstAt page)).curr_task then _ else _) = _
      rw [if_pos hcurr.symm]
    · have hc' : q ≠ S'.kernel.curr_task := fun hq' => hc (hq'.trans hcurr)
      rw [view_other hc, view_other hc']
      show load S'.cpu.2 ((S.kernel.create_task p (firstAt page)).procs q).reg.addr = _
      rw [hreg q (hne q hq)]
      obtain ⟨hlo, hhi⟩ := h.frame q hq hc
      exact load_congr fun x hx hx' => hmem q hq x ⟨Nat.le_trans hlo hx, Nat.lt_of_lt_of_le hx' hhi⟩
  have hviewp : S'.view p = Core.first entry_point (firstAt page) := by
    have hc' : p ≠ S'.kernel.curr_task := fun hc => hcurrp (hc.trans hcurr)
    rw [view_other hc']
    show load S'.cpu.2 ((S.kernel.create_task p (firstAt page)).procs p).reg.addr = _
    rw [hregp]
    exact load_first entry_point (firstAt page) S.cpu.2
  have hmemb : ∀ q, q ∈ S'.kernel.tasks ↔ q = p ∨ q ∈ S.kernel.tasks := by
    intro q
    show q ∈ (S.kernel.create_task p (firstAt page)).tasks ↔ _
    rw [htasks, List.mem_cons]
  refine ⟨⟨⟨create_step h.sched hnew, ?_, ?_, ?_, ?_⟩, fun q hq => (hmemb q).mpr (Or.inr hq),
    fun q hq _ => ⟨hview q hq, hstack q hq, fun x _ hx => hmem q hq x hx⟩⟩, (hmemb p).mpr (Or.inl rfl), hviewp⟩
  · intro q hq r hr hqr
    rcases (hmemb q).mp hq with hqp | hq' <;> rcases (hmemb r).mp hr with hrp | hr'
    · exact absurd (hqp.trans hrp.symm) hqr
    · rw [hqp, hstackp, hstack r hr']
      exact (hfree r hr').symm
    · rw [hrp, hstackp, hstack q hq']
      exact hfree q hq'
    · rw [hstack q hq', hstack r hr']
      exact h.apart q hq' r hr' hqr
  · intro q hq
    rcases (hmemb q).mp hq with rfl | hq
    · rw [hstackp]
      exact hpage
    · rw [hstack q hq]
      exact h.bound q hq
  · intro q hq
    rcases (hmemb q).mp hq with rfl | hq
    · rw [hstackp, hviewp]
      have hrsp : (BitVec.ofNat 64 (firstAt page)).toNat = firstAt page :=
        (BitVec.toNat_ofNat _ _).trans (Nat.mod_eq_of_lt (by omega))
      show page + 191 ≤ (BitVec.ofNat 64 (firstAt page)).toNat ∧ (BitVec.ofNat 64 (firstAt page)).toNat ≤ page + 4096
      rw [hrsp]
      exact ⟨hlow, by omega⟩
    · rw [hstack q hq, hview q hq]
      exact h.room q hq
  · intro q hq hqc
    rcases (hmemb q).mp hq with rfl | hq
    · rw [hstackp]
      show page ≤ ((S.kernel.create_task q (firstAt page)).procs q).reg.addr ∧ _ + FRAME ≤ page + 4096
      rw [hregp]
      exact ⟨by show page ≤ firstAt page; omega, Nat.le_of_eq hin⟩
    · rw [hstack q hq]
      show _ ≤ ((S.kernel.create_task p (firstAt page)).procs q).reg.addr ∧ _
      rw [hreg q (hne q hq)]
      exact h.frame q hq fun hc => hqc (hc.trans hcurr.symm)

/-! ### An interrupt -/

/-- What the handler finds. -/
theorem entry_spec (h : Consistent S) (n : Nat) (err : BitVec 64) :
    ((S.entry n err).1.gpr rdi).toNat = S.cpu.1.frame ∧ load (S.entry n err).2 S.cpu.1.frame = S.cpu.1 ∧
      (S.entry n err).2.word (S.cpu.1.frame + INT_NO) = BitVec.ofNat 64 n ∧
      ∀ x, x < S.cpu.1.frame ∨ S.cpu.1.frame + FRAME ≤ x → (S.entry n err).2 x = S.cpu.2 x := by
  have hroom := h.room _ h.sched.curr.1
  rw [view_curr] at hroom
  obtain ⟨hrsp, hload, hint, -, hout⟩ := entered id n err S.cpu.1 S.cpu.2 (Nat.le_trans (Nat.le_add_left _ _) hroom.1)
  have hentry : S.entry n err =
      exec id mov_rsp_rdi (execAll id (isr n ++ pushed.map push) (deliver n err S.cpu)) := execAll_append _ _ _
  rw [hentry]
  exact ⟨hrsp, hload, hint, hout⟩

/-- Where the registers of a task are once the frame of the interrupted one is in place. -/
def slot (S : System) (p : Nat) : Nat :=
  if p = S.kernel.curr_task then S.cpu.1.frame else (S.kernel.procs p).reg.addr

theorem slot_curr (S : System) : S.slot S.kernel.curr_task = S.cpu.1.frame := if_pos rfl

theorem slot_other (hc : p ≠ S.kernel.curr_task) : S.slot p = (S.kernel.procs p).reg.addr := if_neg hc

theorem slot_on (h : Consistent S) (hp : p ∈ S.kernel.tasks) :
    (S.stack p).1 ≤ S.slot p ∧ S.slot p + FRAME ≤ (S.stack p).2 := by
  by_cases hc : p = S.kernel.curr_task
  · have hroom := h.room p hp
    rw [hc, view_curr] at hroom
    unfold Room at hroom
    have htop := frame_add (c := S.cpu.1) (Nat.le_trans (Nat.le_add_left _ _) hroom.1)
    have hfr : FRAME = 176 := rfl
    rw [hc, slot_curr]
    omega
  · rw [slot_other hc]
    exact h.frame p hp hc

section Handled

variable {n : Nat} {err : BitVec 64} {gpr : Gpr → BitVec 64} {m : Store}

/-- Other stacks are as they were. -/
theorem handled_other (h : Consistent S) (he : (Event.interrupt n err gpr m).Possible S)
    (hp : p ∈ S.kernel.tasks) (hc : p ≠ S.kernel.curr_task) {x : Nat} (hx : S.On p x) : m x = S.cpu.2 x := by
  obtain ⟨-, -, -, hout⟩ := entry_spec h n err
  refine (he.2 p hp x hx fun hpc => absurd hpc hc).trans (hout x ?_)
  have helse := h.elsewhere hp h.sched.curr.1 hc hx
  have hslot := slot_on h h.sched.curr.1
  rw [slot_curr] at hslot
  omega

/-- When the handler is done, the registers of every task are in its frame. -/
theorem handled_load (h : Consistent S) (he : (Event.interrupt n err gpr m).Possible S)
    (hp : p ∈ S.kernel.tasks) : load m (S.slot p) = S.view p := by
  obtain ⟨hlo, hhi⟩ := slot_on h hp
  by_cases hc : p = S.kernel.curr_task
  · obtain ⟨-, hload, -, -⟩ := entry_spec h n err
    rw [hc] at hlo hhi ⊢
    rw [slot_curr] at hlo hhi ⊢
    rw [view_curr]
    refine (load_congr fun x hx hx' => ?_).trans hload
    exact he.2 _ h.sched.curr.1 x ⟨Nat.le_trans hlo hx, Nat.lt_of_lt_of_le hx' hhi⟩ fun _ => hx
  · rw [slot_other hc, view_other hc]
    rw [slot_other hc] at hlo hhi
    exact load_congr fun x hx hx' =>
      handled_other h he hp hc ⟨Nat.le_trans hlo hx, Nat.lt_of_lt_of_le hx' hhi⟩

/-- Which task goes on, and where the others' registers are. -/
theorem answered (h : Consistent S) {r : Registers × Kernel} (hr : S.answer n err = some r) :
    Sched r.2 ∧ r.2.tasks = S.kernel.tasks ∧ ∃ p ∈ S.kernel.tasks, r.2.curr_task = p ∧ r.1.addr = S.slot p ∧
      ∀ q ∈ S.kernel.tasks, q ≠ p → (r.2.procs q).reg.addr = S.slot q := by
  obtain ⟨hrdi, -, -, -⟩ := entry_spec h n err
  have hanswer := isr_handler_answers h.sched rfl hr
  rw [hrdi] at hanswer
  refine ⟨hanswer.sched, hanswer.tasks, ?_⟩
  rcases hanswer.frame with ⟨hk, hregs⟩ | ⟨hregs, hall⟩
  · refine ⟨_, h.sched.curr.1, congrArg Kernel.curr_task hk, ?_, fun q hq hc => ?_⟩
    · rw [hregs, slot_curr]
    · rw [hk, slot_other hc]
  · have hall' : ∀ q, (r.2.procs q).reg.addr = S.slot q := by
      intro q
      rw [hall q]
      exact apply_ite Registers.addr _ _ _
    exact ⟨_, hanswer.tasks ▸ hanswer.sched.curr.1, rfl, by rw [hregs, hall'], fun q _ _ => hall' q⟩

theorem next_interrupt (S : System) (n : Nat) (err : BitVec 64) (gpr : Gpr → BitVec 64) (m : Store) :
    S.next (.interrupt n err gpr m) = (S.answer n err).bind fun r =>
      some { S with
        kernel := r.2
        cpu := Interrupts.interrupt
          (fun s => ({ s.1 with gpr := fun q => if q = rax then BitVec.ofNat 64 r.1.addr else gpr q }, m))
          n err S.cpu } := rfl

theorem interrupt_event (h : Consistent S) (he : (Event.interrupt n err gpr m).Possible S) {S' : System}
    (hS' : S.next (.interrupt n err gpr m) = some S') : Carried S S' none := by
  rw [next_interrupt] at hS'
  obtain ⟨r, hr, hnext⟩ := Option.bind_eq_some_iff.mp hS'
  obtain ⟨hsched, htasks, p, hp, hcurr, haddr, hframes⟩ := answered h hr
  obtain ⟨hlo, hhi⟩ := slot_on h hp
  have hpb := h.bound p hp
  have hrax : (BitVec.ofNat 64 r.1.addr).toNat = S.slot p := by
    rw [haddr]
    exact (BitVec.toNat_ofNat _ _).trans (Nat.mod_eq_of_lt (by omega))
  let handler : Machine → Machine := fun s =>
    ({ s.1 with gpr := fun q => if q = rax then BitVec.ofNat 64 r.1.addr else gpr q }, m)
  have hgo : Interrupts.interrupt handler n err S.cpu = (load m (S.slot p), m) := by
    have hval : ∀ s : Machine, ((handler s).1.gpr rax).toNat = S.slot p := fun s => hrax
    have := interrupt_eq handler n err S.cpu (by rw [hval]; omega)
    rw [this, hval]
  obtain rfl : { S with kernel := r.2, cpu := (load m (S.slot p), m) } = S' := by
    rw [← hgo]
    exact Option.some.inj hnext
  have hview : ∀ q ∈ S.kernel.tasks,
      System.view { S with kernel := r.2, cpu := (load m (S.slot p), m) } q = S.view q := by
    intro q hq
    rw [← handled_load h he hq]
    unfold System.view
    dsimp only
    rw [hcurr]
    by_cases hqp : q = p
    · rw [if_pos hqp, hqp]
    · rw [if_neg hqp, hframes q hq hqp]
  refine ⟨⟨hsched, ?_, ?_, fun q hq => ?_, fun q hq hc => ?_⟩, fun q hq => ?_, fun q hq _ => ?_⟩
  · show ∀ p ∈ r.2.tasks, ∀ q ∈ r.2.tasks, _
    rw [htasks]
    exact h.apart
  · show ∀ p ∈ r.2.tasks, _
    rw [htasks]
    exact h.bound
  · have hq' : q ∈ S.kernel.tasks := htasks ▸ hq
    rw [hview q hq']
    exact h.room q hq'
  · have hq' : q ∈ S.kernel.tasks := htasks ▸ hq
    show _ ≤ (r.2.procs q).reg.addr ∧ _
    rw [hframes q hq' fun hc' => hc (hc'.trans hcurr.symm)]
    exact slot_on h hq'
  · show q ∈ r.2.tasks
    rw [htasks]
    exact hq
  · refine ⟨hview q hq, rfl, fun x hx hon => ?_⟩
    by_cases hc : q = S.kernel.curr_task
    · obtain ⟨-, -, -, hout⟩ := entry_spec h n err
      have hroom := h.room q hq
      rw [hc, view_curr] at hx hroom
      have htop := frame_add (c := S.cpu.1) (Nat.le_trans (Nat.le_add_left _ _) hroom.1)
      exact (he.2 q hq x hon fun _ => by omega).trans (hout x (Or.inr (by omega)))
    · exact handled_other h he hq hc hon

end Handled

/-! ### Runs -/

/-- What an event keeps. -/
theorem event_step (h : Consistent S) {e : Event} (he : e.Possible S) (hn : S.next e = some S') :
    Carried S S' (e.worker S) := by
  cases e with
  | work c m =>
      obtain rfl := Option.some.inj hn
      exact work_step h he
  | interrupt n err gpr m => exact interrupt_event h he hn
  | create entry_point p page => exact (create_event h he hn).1
  | swap =>
      obtain rfl := Option.some.inj hn
      exact swap_event h

theorem boot_consistent (k : Kernel) {cpu : Machine} {stack : Nat × Nat} (hroom : Room stack cpu.1)
    (hbound : stack.2 < 2 ^ 64) : Consistent (boot k cpu stack) := by
  have honly : ∀ p ∈ (boot k cpu stack).kernel.tasks, p = kernel_task := by
    intro p hp
    simpa [boot, Kernel.boot, init_tasks, rr_add_task_tasks] using hp
  refine ⟨boot_sched k, fun p hp q hq hpq => ?_, fun _ _ => hbound, fun p hp => ?_, fun p hp hc => ?_⟩
  · exact absurd ((honly p hp).trans (honly q hq).symm) hpq
  · rw [honly p hp]
    exact hroom
  · exact absurd (honly p hp) hc

theorem run_consistent (h : Consistent S) (hr : Run S S') : Consistent S' := by
  induction hr with
  | refl => exact h
  | tail _ hstep ih =>
      obtain ⟨e, he, hn⟩ := hstep
      exact (event_step ih he hn).consistent

theorem without_untouched (h : Consistent S) (hp : p ∈ S.kernel.tasks) (hr : Without p S S') :
    Consistent S' ∧ p ∈ S'.kernel.tasks ∧ Untouched p S S' := by
  induction hr with
  | refl => exact ⟨h, hp, Untouched.refl p S⟩
  | tail _ hstep ih =>
      obtain ⟨hcons, hknown, hsame⟩ := ih
      obtain ⟨e, he, hn, hw⟩ := hstep
      have hstep' := event_step hcons he hn
      exact ⟨hstep'.consistent, hstep'.known p hknown, hsame.trans (hstep'.untouched p hknown hw)⟩

/-- An interrupt stops the machine where it is an exception of the kernel itself. -/
theorem interrupt_halts (h : Consistent S) {n : Nat} {err : BitVec 64} {gpr : Gpr → BitVec 64} {m : Store}
    (hn : n < 256) : S.next (.interrupt n err gpr m) = none ↔
      n < 32 ∧ (S.kernel.procs S.kernel.curr_task).pid = 0 := by
  obtain ⟨hrdi, -, hint, -⟩ := entry_spec h n err
  have hval : (BitVec.ofNat 64 n).toNat = n := (BitVec.toNat_ofNat _ _).trans (Nat.mod_eq_of_lt (by omega))
  have hanswer : S.next (.interrupt n err gpr m) = none ↔ S.answer n err = none := by
    rw [next_interrupt]
    cases S.answer n err with
    | none => exact ⟨fun _ => rfl, fun _ => rfl⟩
    | some r => exact ⟨fun hc => absurd hc (Option.some_ne_none _), fun hc => absurd hc (Option.some_ne_none _)⟩
  have h32 : (32 : BitVec 64) ≤ BitVec.ofNat 64 n ↔ 32 ≤ n := by
    rw [BitVec.le_def, hval]
    exact Iff.rfl
  have hlt : BitVec.ofNat 64 n < (32 : BitVec 64) ↔ n < 32 := by
    rw [BitVec.lt_def, hval]
    exact Iff.rfl
  rw [hanswer]
  unfold answer isr_handler
  dsimp only
  rw [hrdi, hint]
  by_cases hlow : n < 32
  · have hno : ¬ ((32 : BitVec 64) ≤ BitVec.ofNat 64 n ∧ BitVec.ofNat 64 n ≤ 47) := fun hc => by
      have := h32.mp hc.1
      omega
    rw [if_neg hno, if_pos (hlt.mpr hlow)]
    unfold exception
    by_cases hpid : (S.kernel.procs S.kernel.curr_task).pid = 0
    · rw [if_neg (not_not.mpr hpid)]
      exact ⟨fun _ => ⟨hlow, hpid⟩, fun _ => rfl⟩
    · rw [if_pos hpid]
      exact ⟨fun hc => absurd hc (Option.some_ne_none _), fun hc => absurd hc.2 hpid⟩
  · have hsome : ∀ {r : Registers × Kernel}, some r = none ↔
        n < 32 ∧ (S.kernel.procs S.kernel.curr_task).pid = 0 :=
      ⟨fun hc => absurd hc (Option.some_ne_none _), fun hc => absurd hc.1 hlow⟩
    split
    · split <;> exact hsome
    · rw [if_neg fun hc => hlow (hlt.mp hc)]
      exact hsome

/-- **A task goes on as it was left.**  Take any state `S` after start-up and a task `p` of it.  Whatever
happens until `p` works again (other tasks at work, interrupts of any vector, exceptions, new tasks,
swaps of the scheduler), its registers and its stack from the stack pointer up stay what they were in
`S`, so that the processor has exactly them when it comes back to `p`.  A new task starts with the
registers `create_task` gave it, and only an exception of the kernel itself stops the machine. -/
theorem resumed_as_left (k₀ : Kernel) (cpu : Machine) (stack : Nat × Nat) (hroom : Room stack cpu.1)
    (hbound : stack.2 < 2 ^ 64) (S : System) (hr : Run (boot k₀ cpu stack) S) :
    (∀ p ∈ S.kernel.tasks, ∀ S', Without p S S' →
      Untouched p S S' ∧ (S'.kernel.curr_task = p → S'.cpu.1 = S.view p)) ∧
    (∀ entry_point p page, (Event.create entry_point p page).Possible S →
      ∀ S', S.next (.create entry_point p page) = some S' →
        p ∈ S'.kernel.tasks ∧ S'.view p = Core.first entry_point (firstAt page)) ∧
    ∀ n err gpr m, (Event.interrupt n err gpr m).Possible S →
      (S.next (.interrupt n err gpr m) = none ↔ n < 32 ∧ (S.kernel.procs S.kernel.curr_task).pid = 0) := by
  have h := run_consistent (boot_consistent k₀ hroom hbound) hr
  refine ⟨fun p hp S' hw => ?_, fun entry_point p page he S' hn => (create_event h he hn).2,
    fun n err gpr m he => interrupt_halts h he.1⟩
  obtain ⟨-, -, hsame⟩ := without_untouched h hp hw
  refine ⟨hsame, fun hc => ?_⟩
  rw [← hsame.core, ← hc, view_curr]

/-- With the kernel's stack below `0x90000` and one task made. -/
theorem resumed_as_left_two :
    let cpu : Machine := (Core.first 0 0x8F000, fun _ => 0)
    let S : System :=
      { kernel := zeroed.boot.create_task 1 (firstAt 0x100000)
        cpu := (cpu.1, writeAll (firstFrame 0x1234 (firstAt 0x100000)) (firstAt 0x100000) cpu.2)
        stack := fun q => if q = 1 then (0x100000, 0x100000 + 4096) else (0x80000, 0x90000) }
    (∀ p ∈ S.kernel.tasks, ∀ S', Without p S S' →
      Untouched p S S' ∧ (S'.kernel.curr_task = p → S'.cpu.1 = S.view p)) ∧
    (∀ entry_point p page, (Event.create entry_point p page).Possible S →
      ∀ S', S.next (.create entry_point p page) = some S' →
        p ∈ S'.kernel.tasks ∧ S'.view p = Core.first entry_point (firstAt page)) ∧
    ∀ n err gpr m, (Event.interrupt n err gpr m).Possible S →
      (S.next (.interrupt n err gpr m) = none ↔ n < 32 ∧ (S.kernel.procs S.kernel.curr_task).pid = 0) :=
  resumed_as_left zeroed (Core.first 0 0x8F000, fun _ => 0) (0x80000, 0x90000)
    ⟨by decide, by decide⟩ (by decide) _
    (.single ⟨.create 0x1234 1 0x100000, ⟨by decide, by decide, by decide⟩, rfl⟩)

end System

end Interrupts

end Eke
