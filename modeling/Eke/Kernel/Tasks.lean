/-
Tasks and the round-robin scheduler.

The model follows `kernel/task.cpp`, `modules/sched/round_robin.cpp`, the exception
and timer paths of `isr_handler` and `swap_scheduler`.  A process is named by the
address of its structure; the fields no code here reads are left out.  A register
frame carries the process on whose stack it lies, which is how a frame belongs to a
process: the interrupt stubs push it on the stack of whatever is running.

`tasks` records every process structure ever made and is read by no code.
-/
import Mathlib.Data.List.Basic
import Mathlib.Logic.Relation

namespace Eke

/-- A saved register frame at `addr`, on the stack of `owner`. -/
structure Registers where
  owner : Nat
  addr : Nat

structure Process where
  pid : Nat
  reg : Registers
  state : Nat
  next : Option Nat

/-- The statics of the three files; the active scheduler is the round-robin one. -/
structure Kernel where
  procs : Nat → Process
  curr_task : Nat
  next_pid : Nat
  listhead : Option Nat
  listtail : Option Nat
  ready_queue : Nat → Option Nat
  queue_count : Nat
  current_idx : Nat
  tasks : List Nat

/-- The address of the static `kernel_task`. -/
def kernel_task : Nat := 0

namespace Kernel

/-- Write one field of the process at `p`. -/
def modify (s : Kernel) (p : Nat) (f : Process → Process) : Kernel :=
  { s with procs := fun q => if q = p then f (s.procs q) else s.procs q }

/-! ### `round_robin.cpp` -/

def rr_init (s : Kernel) : Kernel := { s with queue_count := 0, current_idx := 0 }

def rr_add_task (s : Kernel) (proc : Nat) : Kernel :=
  if s.queue_count < 32 then
    { s with
      ready_queue := fun i => if i = s.queue_count then some proc else s.ready_queue i
      queue_count := s.queue_count + 1 }
  else s

/-- The loop of `rr_pick_next`, with `n` rounds left. -/
def pick_loop (current : Nat) : Nat → Kernel → Nat × Kernel
  | 0, s => (current, s)
  | n + 1, s =>
    let s := { s with current_idx := (s.current_idx + 1) % s.queue_count }
    match s.ready_queue s.current_idx with
    | some p => if 0 < (s.procs p).state then (p, s) else pick_loop current n s
    | none => pick_loop current n s

def rr_pick_next (s : Kernel) (current : Nat) : Nat × Kernel :=
  if s.queue_count = 0 then (current, s) else pick_loop current s.queue_count s

/-! ### `task.cpp` -/

def init_tasks (s : Kernel) : Kernel :=
  let s := s.modify kernel_task fun p => { p with pid := 0, state := 2, next := none }
  let s := { s with
    curr_task := kernel_task, listhead := some kernel_task, listtail := some kernel_task
    tasks := [kernel_task] }
  s.rr_add_task kernel_task

/-- `create_task`, with the new structure at `p` and its first frame at `frame`. -/
def create_task (s : Kernel) (p frame : Nat) : Kernel :=
  let s := { s with
    next_pid := s.next_pid + 1
    tasks := p :: s.tasks }
  let s := s.modify p fun _ => { pid := s.next_pid, reg := ⟨p, frame⟩, state := 1, next := none }
  let s := s.rr_add_task p
  let s := match s.listtail with
    | some t => s.modify t fun q => { q with next := some p }
    | none => s
  { s with listtail := some p }

/-- `schedule_next_task`: the frame to resume. -/
def schedule_next_task (s : Kernel) (regs : Registers) : Registers × Kernel :=
  let s := s.modify s.curr_task fun p => { p with reg := regs }
  let (next, s) := s.rr_pick_next s.curr_task
  ((s.procs next).reg, { s with curr_task := next })

/-! ### `isr_handler` and `swap_scheduler` -/

/-- The exception path: the running process is terminated, unless it is the kernel, which
halts. -/
def exception (s : Kernel) (regs : Registers) : Option (Registers × Kernel) :=
  if (s.procs s.curr_task).pid ≠ 0 then
    some ((s.modify s.curr_task fun p => { p with state := 0 }).schedule_next_task regs)
  else none

/-- The walk over the master list: `curr` is the node looked at, `prev` the last one kept. -/
def walk : Nat → Option Nat → Option Nat → Kernel → Kernel
  | 0, _, _, s => s
  | _ + 1, none, _, s => s
  | n + 1, some p, prev, s =>
    if (s.procs p).state = 0 then
      let s := match prev with
        | some q => s.modify q fun r => { r with next := (s.procs p).next }
        | none => { s with listhead := (s.procs p).next }
      let s := if s.listtail = some p then { s with listtail := prev } else s
      walk n (s.procs p).next prev s
    else walk n (s.procs p).next (some p) (s.rr_add_task p)

/-- `swap_scheduler` to a re-initialised round-robin module.  The master list holds the
kernel task and at most one node for each pid given, which bounds the walk. -/
def swap_scheduler (s : Kernel) : Kernel :=
  walk (s.next_pid + 2) s.rr_init.listhead none s.rr_init

/-! ### What happens -/

inductive Event
  /-- `create_task`, its two page allocations succeeding. -/
  | create (p frame : Nat)
  /-- A timer interrupt. -/
  | tick (regs : Registers)
  /-- A CPU exception. -/
  | fault (regs : Registers)
  | swap

/-- An event can happen: a new structure lies in pages not in use, an interrupt pushes its
frame on the stack of the running process, and the exceptions looked at are those raised
while a process other than the kernel runs. -/
def Event.Possible (s : Kernel) : Event → Prop
  | .create p _ => p ∉ s.tasks
  | .tick regs => regs.owner = s.curr_task
  | .fault regs => regs.owner = s.curr_task ∧ (s.procs s.curr_task).pid ≠ 0
  | .swap => True

/-- The frame an event makes the processor resume, if it enters the scheduler. -/
def resumed (s : Kernel) : Event → Option Registers
  | .tick regs => some (s.schedule_next_task regs).1
  | .fault regs => (s.exception regs).map Prod.fst
  | _ => none

def next (s : Kernel) : Event → Kernel
  | .create p frame => s.create_task p frame
  | .tick regs => (s.schedule_next_task regs).2
  | .fault regs => ((s.exception regs).map Prod.snd).getD s
  | .swap => s.swap_scheduler

/-- One event. -/
inductive Step : Kernel → Kernel → Prop
  | mk (s : Kernel) (e : Event) : e.Possible s → Step s (s.next e)

def Steps : Kernel → Kernel → Prop := Relation.ReflTransGen Step

/-- All statics zero. -/
def zeroed : Kernel :=
  { procs := fun _ => ⟨0, ⟨0, 0⟩, 0, none⟩, curr_task := 0, next_pid := 0, listhead := none
    listtail := none, ready_queue := fun _ => none, queue_count := 0, current_idx := 0, tasks := [] }

/-- Start-up, whatever the memory holds: the scheduler is installed, then `init_tasks` runs. -/
def boot (s : Kernel) : Kernel := ({ s with next_pid := 0 }.rr_init).init_tasks

end Kernel

end Eke
