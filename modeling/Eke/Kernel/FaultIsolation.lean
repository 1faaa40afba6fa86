/-
Programs and the shell.

`cmd_run` loads a program and calls its entry point: no task is created, so the program
runs in the shell's process, on the shell's stack.  `isr_handler` terminates the current
task on an exception, and while a program runs that task is the shell.
-/
import Eke.Kernel.Scheduling
import Eke.Lib.Bytes

namespace Eke

/-! ### `cmd_run` -/

/-- What `cmd_run` uses of the filesystem and of the page allocator: names are strings
without their terminating zero, `read_file` gives its result and the memory it leaves. -/
structure Loader where
  get_size : List Char → Nat
  alloc_page : Int → Nat
  read_file : List Char → Nat → Nat → Int × Store

def MAGICNUM : Nat := 0x454B4531

/-- The address `cmd_run` calls, if it gets that far. -/
def cmd_run (fs : Option Loader) (args : Option (List Char)) : Option Nat :=
  let args := (args.getD []).dropWhile (· == ' ')
  if args = [] then none
  else match fs with
    | none => none
    | some fs =>
      let sz := fs.get_size args
      if sz = 0 then none
      else
        let pages := (BitVec.ofNat 32 ((sz + 4095) % 2 ^ 64 / 4096)).toInt
        let mem := fs.alloc_page pages
        if mem = 0 then none
        else
          let (read_bytes, m) := fs.read_file args mem sz
          if read_bytes < 0 then none
          else if m.le mem 4 = MAGICNUM then some (mem + m.le (mem + 40) 4)
          else some mem

/-- The kernel, the process that runs `shell_task`, and the entry point of the program
that `cmd_run` is in. -/
structure System where
  kernel : Kernel
  shell : Nat
  program : Option Nat

namespace System

inductive Event
  /-- A task created, a timer interrupt, a swap, or an exception in another process. -/
  | kernel (e : Kernel.Event)
  /-- The shell runs a program. -/
  | run (fs : Option Loader) (args : Option (List Char))
  /-- The program returns to `cmd_run`. -/
  | finish
  /-- A CPU exception in the program. -/
  | crash (regs : Registers)

/-- The shell does something only while its process is the current one, and so does the
program it called. -/
def Event.Possible (s : System) : Event → Prop
  | .kernel (.fault regs) =>
      Kernel.Event.Possible s.kernel (.fault regs) ∧ s.kernel.curr_task ≠ s.shell
  | .kernel e => e.Possible s.kernel
  | .run fs args => s.kernel.curr_task = s.shell ∧ s.program = none ∧ (cmd_run fs args).isSome
  | .finish => s.kernel.curr_task = s.shell ∧ s.program.isSome
  | .crash regs =>
      s.kernel.curr_task = s.shell ∧ s.program.isSome ∧ regs.owner = s.kernel.curr_task

def next (s : System) : Event → System
  | .kernel e => { s with kernel := s.kernel.next e }
  | .run fs args => { s with program := cmd_run fs args }
  | .finish => { s with program := none }
  | .crash regs => { s with kernel := s.kernel.next (.fault regs) }

/-- `kernel_main`: the tasks are initialised and the shell's is created. -/
def boot (s : Kernel) (p frame : Nat) : System :=
  { kernel := s.boot.create_task p frame, shell := p, program := none }

/-- The states a list of events leads to. -/
inductive Run (s₀ : System) : List Event → System → Prop
  | start : Run s₀ [] s₀
  | step {es : List Event} {s : System} (e : Event) :
      Run s₀ es s → e.Possible s → Run s₀ (es ++ [e]) (s.next e)

/-- The shell's process is a task, and its pid is not the kernel's. -/
structure Sound (s : System) : Prop where
  sched : s.kernel.Sched
  known : s.shell ∈ s.kernel.tasks
  pid : (s.kernel.procs s.shell).pid ≠ 0

variable {s : System} {e : Event}

/-- An event of the kernel terminates a task. -/
def Kills (k : Kernel) (q : Nat) : Kernel.Event → Prop
  | .fault _ => q = k.curr_task
  | _ => False

/-- What an event of the kernel makes of a task. -/
theorem kernel_next_task {k : Kernel} (h : k.Sched) {e : Kernel.Event} (he : e.Possible k) {q : Nat}
    (hq : q ∈ k.tasks) :
    ((k.next e).procs q).pid = (k.procs q).pid ∧
      (Kills k q e → ((k.next e).procs q).state = 0) ∧
      (¬ Kills k q e → ((k.next e).procs q).state = (k.procs q).state) := by
  obtain ⟨l, hl⟩ := h.master
  cases e with
  | create p frame =>
      have hne : q ≠ p := fun hc => he (hc ▸ hq)
      obtain ⟨hstate, hpid, -⟩ := @Kernel.create_task_state _ _ _ frame _ hl he hne
      exact ⟨hpid, False.elim, fun _ => hstate⟩
  | tick regs =>
      obtain ⟨hr, -⟩ := Kernel.tick_step h he
      exact ⟨hr.pids q, False.elim, fun _ => hr.states q⟩
  | swap =>
      obtain ⟨hstate, hpid, -⟩ := Kernel.swap_same h q
      exact ⟨hpid, False.elim, fun _ => hstate⟩
  | fault regs =>
      obtain ⟨r, heq, hr, -⟩ := Kernel.fault_step h he.1 he.2
      have hnext : k.next (.fault regs) = r.2 := by simp [Kernel.next, heq]
      rw [hnext, hr.states, hr.pids]
      by_cases hc : q = k.curr_task
      · rw [hc, Kernel.modify_same]
        exact ⟨rfl, fun _ => rfl, fun hk => absurd rfl hk⟩
      · rw [Kernel.modify_other _ hc]
        exact ⟨rfl, fun hk => absurd hk hc, fun _ => rfl⟩

/-- A crash is one of the exceptions the scheduler's invariant covers. -/
theorem Sound.possible_fault (h : Sound s) {regs : Registers}
    (he : Event.Possible s (.crash regs)) : Kernel.Event.Possible s.kernel (.fault regs) := by
  obtain ⟨hcurr, -, howner⟩ := he
  refine ⟨howner, ?_⟩
  rw [hcurr]
  exact h.pid

theorem Event.Possible.kernel {e : Kernel.Event} (he : Event.Possible s (.kernel e)) :
    e.Possible s.kernel := by
  cases e with
  | fault regs => exact he.1
  | create p frame => exact he
  | tick regs => exact he
  | swap => exact he

theorem Sound.kernel (h : Sound s) {e : Kernel.Event} (he : e.Possible s.kernel) :
    Sound { s with kernel := s.kernel.next e } := by
  obtain ⟨hsched, hmem, -⟩ := Kernel.next_step h.sched he
  obtain ⟨hpid, -⟩ := kernel_next_task h.sched he h.known
  exact ⟨hsched, hmem _ h.known, fun hc => h.pid (hpid.symm.trans hc)⟩

theorem Sound.step (h : Sound s) (he : e.Possible s) : Sound (s.next e) := by
  cases e with
  | kernel e => exact h.kernel he.kernel
  | run fs args => exact ⟨h.sched, h.known, h.pid⟩
  | finish => exact ⟨h.sched, h.known, h.pid⟩
  | crash regs => exact h.kernel (h.possible_fault he)

/-- What terminates the shell: a crash, and nothing else. -/
theorem Sound.state (h : Sound s) (he : e.Possible s) :
    0 < ((s.next e).kernel.procs s.shell).state ↔
      0 < (s.kernel.procs s.shell).state ∧ ∀ regs, e ≠ .crash regs := by
  cases e with
  | kernel e =>
      have hnot : ¬ Kills s.kernel s.shell e := by
        intro hk
        cases e with
        | fault regs => exact he.2 hk.symm
        | create p frame => exact hk
        | tick regs => exact hk
        | swap => exact hk
      show 0 < ((s.kernel.next e).procs s.shell).state ↔ _
      rw [(kernel_next_task h.sched he.kernel h.known).2.2 hnot]
      simp
  | run fs args => simp [next]
  | finish => simp [next]
  | crash regs =>
      show 0 < ((s.kernel.next (.fault regs)).procs s.shell).state ↔ _
      rw [(kernel_next_task h.sched (h.possible_fault he) h.known).2.1 he.1.symm]
      simp

theorem next_shell : (s.next e).shell = s.shell := by
  cases e with
  | kernel e => rfl
  | run fs args => rfl
  | finish => rfl
  | crash regs => rfl

theorem boot_sound (s : Kernel) {p : Nat} (frame : Nat) (hp : p ≠ kernel_task) :
    Sound (boot s p frame) := by
  have hfresh : p ∉ s.boot.tasks := fun hc => hp (List.mem_singleton.mp hc)
  have hsched := Kernel.boot_sched s
  obtain ⟨l, hl⟩ := hsched.master
  refine ⟨Kernel.create_step hsched hfresh, (hl.create hfresh).known p (by simp), ?_⟩
  show ((s.boot.create_task p frame).procs p).pid ≠ 0
  rw [(Kernel.create_task_new hl hfresh).2.1]
  omega

theorem Run.sound {s₀ : System} {es : List Event} (h₀ : Sound s₀) (h : Run s₀ es s) : Sound s := by
  induction h with
  | start => exact h₀
  | step e _ he ih => exact ih.step he

/-- **The shell and the programs it runs.**  In every run from start-up the shell's process
is alive if and only if no program raised an exception while it ran. -/
theorem shell_survives (s₀ : Kernel) (p frame : Nat) (hp : p ≠ kernel_task) (es : List Event)
    (s : System) (h : Run (boot s₀ p frame) es s) :
    0 < (s.kernel.procs s.shell).state ↔ ∀ e ∈ es, ∀ regs, e ≠ .crash regs := by
  have h₀ := boot_sound s₀ frame hp
  induction h with
  | start =>
      have hfresh : p ∉ s₀.boot.tasks := fun hc => hp (List.mem_singleton.mp hc)
      obtain ⟨l, hl⟩ := (Kernel.boot_sched s₀).master
      have hone : ((boot s₀ p frame).kernel.procs p).state = 1 :=
        (Kernel.create_task_new hl hfresh).1
      show 0 < ((boot s₀ p frame).kernel.procs p).state ↔ _
      rw [hone]
      simp
  | step e hrun he ih =>
      rw [next_shell, (hrun.sound h₀).state he]
      simp only [List.mem_append, List.mem_singleton]
      constructor
      · rintro ⟨hold, hnew⟩ e' (he' | rfl)
        · exact ih.mp hold e' he'
        · exact hnew
      · intro hall
        exact ⟨ih.mpr fun e' he' => hall e' (Or.inl he'), hall e (Or.inr rfl)⟩

/-- A filesystem with one file of 65 bytes, without the magic number. -/
def oneFile : Loader :=
  { get_size := fun _ => 65, alloc_page := fun _ => 4096, read_file := fun _ _ _ => (65, fun _ => 0) }

/-- The shell is scheduled, runs `./a`, and the program divides by zero. -/
def crashed : List Event :=
  [.kernel (.tick ⟨0, 0⟩), .run (some oneFile) (some ['a']), .crash ⟨1, 0⟩]

theorem crashed_run : Run (boot .zeroed 1 2) crashed
    ((((boot .zeroed 1 2).next (.kernel (.tick ⟨0, 0⟩))).next
      (.run (some oneFile) (some ['a']))).next (.crash ⟨1, 0⟩)) := by
  refine @Run.step _ [_, _] _ _ (@Run.step _ [_] _ _ (@Run.step _ [] _ _ .start rfl) ?_) ?_
  · exact ⟨rfl, rfl, rfl⟩
  · exact ⟨rfl, rfl, rfl⟩

/-- The run in which no program crashes. -/
theorem shell_survives_tick :
    0 < (((boot .zeroed 1 2).next (.kernel (.tick ⟨0, 0⟩))).kernel.procs
        ((boot .zeroed 1 2).next (.kernel (.tick ⟨0, 0⟩))).shell).state ↔
      ∀ e ∈ [Event.kernel (.tick ⟨0, 0⟩)], ∀ regs, e ≠ .crash regs :=
  shell_survives .zeroed 1 2 (by decide) _ _ (@Run.step _ [] _ _ .start rfl)

/-- A crashing program takes the shell down. -/
theorem shell_terminated : ¬ ∀ (s₀ : Kernel) (p frame : Nat), p ≠ kernel_task →
    ∀ (es : List Event) (s : System), Run (boot s₀ p frame) es s →
      0 < (s.kernel.procs s.shell).state := by
  intro hall
  have := hall .zeroed 1 2 (by decide) _ _ crashed_run
  exact absurd this (by decide)

end System

end Eke
