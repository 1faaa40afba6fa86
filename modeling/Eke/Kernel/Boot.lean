/-
The timer while the kernel boots.

`init_idt` enables interrupts, and `kernel_main` goes on: it looks through the modules, sets
`gk.sched` to the first scheduler whose `module_init` returns one, and only in `init_tasks` gives
`curr_task` a value.  The model makes its statements steps, between which a timer interrupt may
come; once another task runs, `kernel_main` waits.  Modules of the other kinds and `init_heap` touch
nothing that is kept here, and `module_init` is called once at most, so it has one result.

Where a step is determines what the two pointers are, whatever interrupts came before it
(`Placed`): that is all it takes to say which ticks are harmful.
-/
import Eke.Kernel.ModuleSwap
import Eke.Lib.Throughout

namespace Eke

namespace Boot

def MAGICNUM : Nat := 0x454B4531

def MT_SCHEDULER : Nat := 1

/-- A scheduler; null is a possible answer of `pick_next`. -/
structure SCHED_API (σ : Type) where
  add_task : (Nat → Process) → Nat → σ → σ
  pick_next : (Nat → Process) → Nat → σ → Option Nat × σ

/-- A module: what its `module_init` returns, and what that call does to the memory of the schedulers. -/
structure ModuleHeader (σ : Type) where
  magic : Nat
  type : Nat
  api : Option (SCHED_API σ)
  init : σ → σ

/-- What is in the kernel's image, and the two pages that `create_task` gets. -/
structure Image (σ : Type) where
  mods : List (ModuleHeader σ)
  page : Nat
  stack : Nat

/-- The processes, the statics of `task.cpp` and the fields of `gk` about schedulers. -/
structure Machine (σ : Type) where
  procs : Nat → Process
  curr_task : Option Nat
  next_pid : Nat
  listhead : Option Nat
  listtail : Option Nat
  sched : Option (SCHED_API σ)
  sched_mod_count : Nat
  memory : σ

variable {σ : Type}

namespace Machine

/-- Write one field of the process at `p`. -/
def modify (s : Machine σ) (p : Nat) (f : Process → Process) : Machine σ :=
  { s with procs := fun q => if q = p then f (s.procs q) else s.procs q }

/-- `if (gk.sched) gk.sched->add_task(p)` -/
def add_task (p : Nat) (s : Machine σ) : Machine σ :=
  match s.sched with
  | some api => { s with memory := api.add_task s.procs p s.memory }
  | none => s

/-- `schedule_next_task`: the frame to resume.  There is none where a null pointer is followed. -/
def schedule_next_task (s : Machine σ) (regs : Registers) : Option (Registers × Machine σ) :=
  match s.sched with
  | none => some (regs, s)
  | some api =>
      match s.curr_task with
      | none => none
      | some curr =>
          let s := s.modify curr fun p => { p with reg := regs }
          match api.pick_next s.procs curr s.memory with
          | (none, _) => none
          | (some next, memory) =>
              some ((s.procs next).reg, { s with memory := memory, curr_task := some next })

/-! ### The steps of `kernel_main` -/

def reset (s : Machine σ) : Machine σ := { s with sched := none, sched_mod_count := 0 }

/-- A round of the loop over the modules. -/
def register (mod : ModuleHeader σ) (s : Machine σ) : Machine σ :=
  if mod.magic = MAGICNUM then
    if mod.type = MT_SCHEDULER ∧ s.sched_mod_count < 8 then
      match s.sched with
      | none => { s with
          sched_mod_count := s.sched_mod_count + 1
          sched := mod.api
          memory := mod.init s.memory }
      | some _ => { s with sched_mod_count := s.sched_mod_count + 1 }
    else s
  else s

def init_heap (s : Machine σ) : Machine σ := s

/-- `curr_task = &kernel_task` -/
def set_curr_task (s : Machine σ) : Machine σ := { s with curr_task := some kernel_task }

/-- The statements of `init_tasks` in front of that one. -/
def init_tasks_front : List (Machine σ → Machine σ) :=
  [fun s => s.modify kernel_task fun p => { p with pid := 0 },
    fun s => s.modify kernel_task fun p => { p with state := 2 },
    fun s => s.modify kernel_task fun p => { p with next := none }]

/-- The statements of `init_tasks` behind it. -/
def init_tasks_back : List (Machine σ → Machine σ) :=
  [fun s => { s with listhead := some kernel_task },
    fun s => { s with listtail := some kernel_task },
    add_task kernel_task]

/-- `create_task`, with the new structure at `page` and its frame on `stack`. -/
def create_task (page stack : Nat) : List (Machine σ → Machine σ) :=
  [fun s => { s.modify page fun p => { p with pid := s.next_pid + 1 } with next_pid := s.next_pid + 1 },
    fun s => s.modify page fun p => { p with reg := ⟨page, stack⟩ },
    fun s => s.modify page fun p => { p with state := 1 },
    fun s => s.modify page fun p => { p with next := none },
    add_task page,
    fun s =>
      match s.listtail with
      | some t => s.modify t fun p => { p with next := some page }
      | none => s,
    fun s => { s with listtail := some page }]

end Machine

namespace Image

open Machine

/-- The steps before `curr_task` has a value. -/
def front (b : Image σ) : List (Machine σ → Machine σ) :=
  reset :: (b.mods.map register ++ init_heap :: init_tasks_front)

def steps (b : Image σ) : List (Machine σ → Machine σ) :=
  b.front ++ set_curr_task :: (init_tasks_back ++ create_task b.page b.stack)

end Image

/-! ### Runs -/

/-- The machine, and how many steps `kernel_main` has made. -/
structure State (σ : Type) where
  machine : Machine σ
  done : Nat

inductive Event
  /-- The processor runs on. -/
  | run
  /-- A timer interrupt. -/
  | tick (regs : Registers)

/-- `kernel_main` is what the processor runs. -/
def Running (s : Machine σ) : Prop := s.curr_task = none ∨ s.curr_task = some kernel_task

instance (s : Machine σ) : Decidable (Running s) := inferInstanceAs (Decidable (_ ∨ _))

def next (b : Image σ) (s : State σ) : Event → State σ
  | .run =>
      if Running s.machine then
        match b.steps[s.done]? with
        | some step => ⟨step s.machine, s.done + 1⟩
        | none => s
      else s
  | .tick regs =>
      match s.machine.schedule_next_task regs with
      | some (_, machine) => { s with machine := machine }
      | none => s

/-- Behind `sti`, with the statics as they are at first. -/
def start (procs : Nat → Process) (memory : σ) : State σ where
  machine := {
    procs := procs
    curr_task := none
    next_pid := 0
    listhead := none
    listtail := none
    sched := none
    sched_mod_count := 0
    memory := memory }
  done := 0

/-- No null pointer is followed. -/
def Safe (s : State σ) (e : Event) : Prop :=
  ∀ regs, e = .tick regs → s.machine.schedule_next_task regs ≠ none

/-- The scheduler modules. -/
def candidates (mods : List (ModuleHeader σ)) : List (ModuleHeader σ) :=
  mods.filter fun mod => mod.magic = MAGICNUM ∧ mod.type = MT_SCHEDULER

/-- The modules whose `module_init` may be called for a scheduler. -/
def schedulers (mods : List (ModuleHeader σ)) : List (ModuleHeader σ) := (candidates mods).take 8

/-- One of the modules gives a scheduler. -/
def Given (mods : List (ModuleHeader σ)) : Prop := ∃ mod ∈ schedulers mods, mod.api.isSome = true

/-- After `n` steps a scheduler was found, and `curr_task` has not been set. -/
def Window (b : Image σ) (n : Nat) : Prop := Given (b.mods.take (n - 1)) ∧ n ≤ b.front.length

/-- The scheduler has a task for the one that is interrupted. -/
def Answers (s : Machine σ) (regs : Registers) : Prop :=
  ∀ api curr, s.sched = some api → s.curr_task = some curr →
    (api.pick_next (s.modify curr fun p => { p with reg := regs }).procs curr s.memory).1 ≠ none

/-- No tick comes in the window, and the scheduler answers. -/
def Quiet (b : Image σ) (s : State σ) (e : Event) : Prop :=
  ∀ regs, e = .tick regs → ¬ Window b s.done ∧ Answers s.machine regs

/-! ### Steps -/

namespace Machine

variable {s : Machine σ} {p : Nat}

/-- A step that leaves the two pointers alone. -/
def Keeps (step : Machine σ → Machine σ) : Prop := ∀ s, (step s).curr_task = s.curr_task ∧
  (step s).sched = s.sched ∧ (step s).sched_mod_count = s.sched_mod_count

theorem add_task_keeps (p : Nat) : Keeps (add_task (σ := σ) p) := by
  intro s
  unfold add_task
  cases hsched : s.sched with
  | none => exact ⟨rfl, hsched, rfl⟩
  | some api => exact ⟨rfl, rfl, rfl⟩

theorem init_tasks_front_keeps : ∀ step ∈ init_tasks_front (σ := σ), Keeps step := by
  intro step hstep s
  simp only [init_tasks_front, List.mem_cons, List.not_mem_nil, or_false] at hstep
  rcases hstep with rfl | rfl | rfl
  all_goals exact ⟨rfl, rfl, rfl⟩

theorem init_tasks_back_keeps : ∀ step ∈ init_tasks_back (σ := σ), Keeps step := by
  intro step hstep
  simp only [init_tasks_back, List.mem_cons, List.not_mem_nil, or_false] at hstep
  rcases hstep with rfl | rfl | rfl
  · exact fun s => ⟨rfl, rfl, rfl⟩
  · exact fun s => ⟨rfl, rfl, rfl⟩
  · exact add_task_keeps kernel_task

theorem create_task_keeps (page stack : Nat) : ∀ step ∈ create_task (σ := σ) page stack, Keeps step := by
  intro step hstep
  simp only [create_task, List.mem_cons, List.not_mem_nil, or_false] at hstep
  rcases hstep with rfl | rfl | rfl | rfl | rfl | rfl | rfl
  · exact fun s => ⟨rfl, rfl, rfl⟩
  · exact fun s => ⟨rfl, rfl, rfl⟩
  · exact fun s => ⟨rfl, rfl, rfl⟩
  · exact fun s => ⟨rfl, rfl, rfl⟩
  · exact add_task_keeps page
  · intro s
    dsimp only
    cases s.listtail with
    | none => exact ⟨rfl, rfl, rfl⟩
    | some t => exact ⟨rfl, rfl, rfl⟩
  · exact fun s => ⟨rfl, rfl, rfl⟩

end Machine

namespace Image

open Machine

variable {b : Image σ} {n : Nat} {step : Machine σ → Machine σ}

theorem front_length (b : Image σ) : b.front.length = b.mods.length + 5 := by
  unfold front init_tasks_front
  simp

/-- Which step is made after `n` of them. -/
inductive StepAt (b : Image σ) : Nat → (Machine σ → Machine σ) → Prop
  | reset : StepAt b 0 reset
  | register {n : Nat} {mod : ModuleHeader σ} : b.mods[n]? = some mod → StepAt b (n + 1) (register mod)
  | other {n : Nat} {step : Machine σ → Machine σ} : b.mods.length < n → n ≠ b.front.length → Keeps step →
      StepAt b n step
  | set_curr_task : StepAt b b.front.length set_curr_task

theorem step_at (h : b.steps[n]? = some step) : b.StepAt n step := by
  have hlength := b.front_length
  unfold steps at h
  rcases Nat.lt_trichotomy n b.front.length with hlt | rfl | hgt
  · rw [List.getElem?_append_left hlt] at h
    unfold front at h
    cases n with
    | zero =>
        obtain rfl := Option.some.inj h
        exact .reset
    | succ n =>
        rw [List.getElem?_cons_succ] at h
        by_cases hmods : n < b.mods.length
        · rw [List.getElem?_append_left (by rw [List.length_map]; exact hmods), List.getElem?_map,
            List.getElem?_eq_getElem hmods] at h
          obtain rfl := Option.some.inj h
          exact .register (List.getElem?_eq_getElem hmods)
        · rw [List.getElem?_append_right (by rw [List.length_map]; omega)] at h
          have hmem := List.mem_of_getElem? h
          refine .other (by omega) (by omega) ?_
          rcases List.mem_cons.mp hmem with rfl | hfront
          · exact fun s => ⟨rfl, rfl, rfl⟩
          · exact init_tasks_front_keeps step hfront
  · rw [List.getElem?_append_right (Nat.le_refl _), Nat.sub_self] at h
    obtain rfl := Option.some.inj h
    exact .set_curr_task
  · rw [List.getElem?_append_right (by omega)] at h
    obtain ⟨m, hm⟩ : ∃ m, n - b.front.length = m + 1 := ⟨n - b.front.length - 1, by omega⟩
    rw [hm, List.getElem?_cons_succ] at h
    refine .other (by omega) (by omega) ?_
    rcases List.mem_append.mp (List.mem_of_getElem? h) with hback | hcreate
    · exact init_tasks_back_keeps step hback
    · exact create_task_keeps b.page b.stack step hcreate

end Image

/-! ### The two pointers -/

variable {b : Image σ} {s : State σ} {mods : List (ModuleHeader σ)} {mod : ModuleHeader σ}

/-- What the step that is next says of the two pointers. -/
structure Placed (b : Image σ) (s : State σ) : Prop where
  before : s.done ≤ b.front.length → s.machine.curr_task = none
  behind : b.front.length < s.done → s.machine.curr_task ≠ none
  given : s.machine.sched.isSome = true ↔ Given (b.mods.take (s.done - 1))
  count : s.machine.sched_mod_count = min 8 (candidates (b.mods.take (s.done - 1))).length
  source : ∀ api, s.machine.sched = some api → ∃ mod ∈ b.mods, mod.api = some api

theorem start_placed (b : Image σ) (procs : Nat → Process) (memory : σ) :
    Placed b (start procs memory) := by
  refine ⟨fun _ => rfl, fun h => absurd h (Nat.not_lt_zero _), ⟨nofun, ?_⟩, rfl, nofun⟩
  rintro ⟨mod, hmod, -⟩
  cases hmod

/-- One module more. -/
theorem candidates_snoc (mods : List (ModuleHeader σ)) (mod : ModuleHeader σ) :
    candidates (mods ++ [mod]) = if mod.magic = MAGICNUM ∧ mod.type = MT_SCHEDULER then
      candidates mods ++ [mod] else candidates mods := by
  unfold candidates
  rw [List.filter_append, List.filter_singleton]
  by_cases h : mod.magic = MAGICNUM ∧ mod.type = MT_SCHEDULER
  · rw [if_pos h, decide_eq_true h]
    rfl
  · rw [if_neg h, decide_eq_false h]
    exact List.append_nil _

theorem given_snoc (mods : List (ModuleHeader σ)) (mod : ModuleHeader σ) : Given (mods ++ [mod]) ↔
    Given mods ∨ (mod.magic = MAGICNUM ∧ mod.type = MT_SCHEDULER) ∧ (candidates mods).length < 8 ∧
      mod.api.isSome = true := by
  unfold Given schedulers
  rw [candidates_snoc]
  by_cases hkind : mod.magic = MAGICNUM ∧ mod.type = MT_SCHEDULER
  · rw [if_pos hkind]
    by_cases hroom : (candidates mods).length < 8
    · have hlength : (candidates mods ++ [mod]).length = (candidates mods).length + 1 := List.length_append
      rw [List.take_of_length_le (by omega), List.take_of_length_le (by omega)]
      simp [hkind, hroom, or_and_right, exists_or]
    · rw [List.take_append_of_le_length (by omega)]
      simp [hroom]
  · rw [if_neg hkind]
    simp [hkind]

/-- A scheduler module for which there is room: it is asked for an API if there is none. -/
theorem register_scheduler {s : Machine σ} (hkind : mod.magic = MAGICNUM ∧ mod.type = MT_SCHEDULER)
    (hroom : s.sched_mod_count < 8) : (s.register mod).curr_task = s.curr_task ∧
      (s.register mod).sched = s.sched.or mod.api ∧
      (s.register mod).sched_mod_count = s.sched_mod_count + 1 := by
  unfold Machine.register
  rw [if_pos hkind.1, if_pos ⟨hkind.2, hroom⟩]
  cases hsched : s.sched with
  | none => exact ⟨rfl, rfl, rfl⟩
  | some api => exact ⟨rfl, rfl, rfl⟩

theorem register_other {s : Machine σ}
    (h : ¬ ((mod.magic = MAGICNUM ∧ mod.type = MT_SCHEDULER) ∧ s.sched_mod_count < 8)) :
    s.register mod = s := by
  unfold Machine.register
  split
  · rename_i hmagic
    rw [if_neg fun hrest => h ⟨⟨hmagic, hrest.1⟩, hrest.2⟩]
  · rfl

/-- A round of the loop. -/
theorem Placed.register (h : Placed b s) {n : Nat} (hdone : s.done = n + 1) (hmod : b.mods[n]? = some mod) :
    Placed b ⟨s.machine.register mod, s.done + 1⟩ := by
  obtain ⟨hlt, hget⟩ := List.getElem?_eq_some_iff.mp hmod
  have hlength := b.front_length
  have htake : b.mods.take (s.done + 1 - 1) = b.mods.take (s.done - 1) ++ [mod] := by
    rw [hdone, Nat.add_sub_cancel, Nat.add_sub_cancel, List.take_add_one, hmod]
    rfl
  have hgiven := h.given
  have hcount := h.count
  have hearly : s.done + 1 ≤ b.front.length := by omega
  by_cases hnew : (mod.magic = MAGICNUM ∧ mod.type = MT_SCHEDULER) ∧ s.machine.sched_mod_count < 8
  · obtain ⟨hcurr, hsched, hmore⟩ := register_scheduler hnew.1 hnew.2
    have hroom : (candidates (b.mods.take (s.done - 1))).length < 8 := by
      have := hnew.2
      omega
    refine ⟨fun _ => hcurr.trans (h.before (by omega)), fun hlate => absurd hlate (Nat.not_lt.mpr hearly),
      ?_, ?_, fun api hapi => ?_⟩
    · show (s.machine.register mod).sched.isSome = true ↔ Given (b.mods.take (s.done + 1 - 1))
      rw [htake, given_snoc, ← hgiven, hsched, Option.isSome_or, Bool.or_eq_true]
      exact or_congr_right ⟨fun hapi => ⟨hnew.1, hroom, hapi⟩, fun hapi => hapi.2.2⟩
    · show (s.machine.register mod).sched_mod_count =
        min 8 (candidates (b.mods.take (s.done + 1 - 1))).length
      rw [htake, candidates_snoc, if_pos hnew.1, List.length_append, List.length_singleton, hmore]
      omega
    · have hor : s.machine.sched.or mod.api = some api := hsched.symm.trans hapi
      rcases Option.or_eq_some_iff.mp hor with hold | ⟨-, hthis⟩
      · exact h.source api hold
      · exact ⟨mod, List.mem_of_getElem? hmod, hthis⟩
  · rw [register_other hnew]
    refine ⟨fun _ => h.before (by omega), fun hlate => absurd hlate (Nat.not_lt.mpr hearly), ?_, ?_,
      h.source⟩
    · show s.machine.sched.isSome = true ↔ Given (b.mods.take (s.done + 1 - 1))
      rw [htake, given_snoc, ← hgiven]
      refine (or_iff_left fun hapi => hnew ⟨hapi.1, ?_⟩).symm
      have := hapi.2.1
      omega
    · show s.machine.sched_mod_count = min 8 (candidates (b.mods.take (s.done + 1 - 1))).length
      rw [htake, candidates_snoc]
      split
      · rename_i hkind
        have hfull : ¬ s.machine.sched_mod_count < 8 := fun hroom => hnew ⟨hkind, hroom⟩
        rw [List.length_append]
        omega
      · exact hcount

/-- A step behind the loop. -/
theorem take_behind {n : Nat} (h : b.mods.length < n) : b.mods.take (n + 1 - 1) = b.mods.take (n - 1) := by
  rw [List.take_of_length_le (by omega), List.take_of_length_le (by omega)]

/-- `kernel_main` makes a step. -/
theorem Placed.step (h : Placed b s) {step : Machine σ → Machine σ} (hstep : b.steps[s.done]? = some step) :
    Placed b ⟨step s.machine, s.done + 1⟩ := by
  have hlength := b.front_length
  have hat := Image.step_at hstep
  obtain ⟨machine, n⟩ := s
  dsimp only at hat ⊢
  cases hat with
  | reset =>
      refine ⟨fun _ => h.before (Nat.zero_le _), fun hlate => ?_, ⟨nofun, ?_⟩, rfl, nofun⟩
      · have : b.front.length < 1 := hlate
        omega
      · rintro ⟨mod, hmod, -⟩
        cases hmod
  | register hmod => exact h.register rfl hmod
  | other hbehind hne hkeeps =>
      obtain ⟨hcurr, hsched, hcount⟩ := hkeeps machine
      refine ⟨fun hle => hcurr.trans (h.before ?_), fun hlt => ?_, ?_, ?_, fun api hapi => ?_⟩
      · exact Nat.le_of_succ_le hle
      · rw [hcurr]
        have hlate : b.front.length < n + 1 := hlt
        exact h.behind (show b.front.length < n by omega)
      · show (step machine).sched.isSome = true ↔ Given (b.mods.take (n + 1 - 1))
        rw [hsched, take_behind hbehind]
        exact h.given
      · show (step machine).sched_mod_count = min 8 (candidates (b.mods.take (n + 1 - 1))).length
        rw [hcount, take_behind hbehind]
        exact h.count
      · exact h.source api (hsched.symm.trans hapi)
  | set_curr_task =>
      have hbehind : b.mods.length < b.front.length := by omega
      refine ⟨fun hle => absurd hle (Nat.not_succ_le_self _), fun _ => Option.some_ne_none _, ?_, ?_,
        h.source⟩
      · show machine.sched.isSome = true ↔ Given (b.mods.take (b.front.length + 1 - 1))
        rw [take_behind hbehind]
        exact h.given
      · show machine.sched_mod_count = min 8 (candidates (b.mods.take (b.front.length + 1 - 1))).length
        rw [take_behind hbehind]
        exact h.count

/-! ### Ticks -/

theorem answers_iff {s : Machine σ} {regs : Registers} {api : SCHED_API σ} {curr : Nat}
    (hsched : s.sched = some api) (hcurr : s.curr_task = some curr) : Answers s regs ↔
      (api.pick_next (s.modify curr fun p => { p with reg := regs }).procs curr s.memory).1 ≠ none := by
  constructor
  · intro h
    exact h api curr hsched hcurr
  · intro h api' curr' hsched' hcurr'
    obtain rfl := Option.some.inj (hsched.symm.trans hsched')
    obtain rfl := Option.some.inj (hcurr.symm.trans hcurr')
    exact h

/-- A tick follows a null pointer if there is a scheduler, and no current task or no answer. -/
theorem schedule_next_task_none {s : Machine σ} {regs : Registers} : s.schedule_next_task regs = none ↔
    s.sched.isSome = true ∧ (s.curr_task = none ∨ ¬ Answers s regs) := by
  cases hsched : s.sched with
  | none =>
      unfold Machine.schedule_next_task
      rw [hsched]
      exact ⟨nofun, fun h => absurd h.1 Bool.false_ne_true⟩
  | some api =>
      cases hcurr : s.curr_task with
      | none =>
          unfold Machine.schedule_next_task
          rw [hsched, hcurr]
          exact ⟨fun _ => ⟨rfl, Or.inl rfl⟩, fun _ => rfl⟩
      | some curr =>
          rw [answers_iff hsched hcurr, not_not]
          unfold Machine.schedule_next_task
          rw [hsched, hcurr]
          dsimp only
          show (match api.pick_next _ curr s.memory with
            | (none, _) => none
            | (some next, memory) => _) = none ↔ _
          obtain ⟨answer, memory⟩ :=
            api.pick_next (s.modify curr fun p => { p with reg := regs }).procs curr s.memory
          cases answer with
          | none => exact ⟨fun _ => ⟨rfl, Or.inr rfl⟩, fun _ => rfl⟩
          | some next => exact ⟨nofun, fun h => absurd h.2 (not_or.mpr ⟨nofun, nofun⟩)⟩

/-- A tick that follows none leaves the scheduler where it is, and there is a current task behind it
if there was one. -/
theorem schedule_next_task_some {s t : Machine σ} {regs frame : Registers}
    (h : s.schedule_next_task regs = some (frame, t)) : t.sched = s.sched ∧
      t.sched_mod_count = s.sched_mod_count ∧ (t.curr_task = none ↔ s.curr_task = none) := by
  unfold Machine.schedule_next_task at h
  cases hsched : s.sched with
  | none =>
      rw [hsched] at h
      obtain rfl := (Prod.mk.inj (Option.some.inj h)).2
      exact ⟨hsched, rfl, Iff.rfl⟩
  | some api =>
      cases hcurr : s.curr_task with
      | none =>
          rw [hsched, hcurr] at h
          cases h
      | some curr =>
          rw [hsched, hcurr] at h
          dsimp only at h
          generalize api.pick_next _ curr _ = answer at h
          obtain ⟨answer, memory⟩ := answer
          cases answer with
          | none => cases h
          | some next =>
              obtain rfl := (Prod.mk.inj (Option.some.inj h)).2
              exact ⟨hsched, rfl, ⟨nofun, nofun⟩⟩

theorem Placed.tick (h : Placed b s) {regs frame : Registers} {machine : Machine σ}
    (htick : s.machine.schedule_next_task regs = some (frame, machine)) :
    Placed b { s with machine := machine } := by
  obtain ⟨hsched, hcount, hcurr⟩ := schedule_next_task_some htick
  refine ⟨fun hle => hcurr.mpr (h.before hle), fun hlt hnone => h.behind hlt (hcurr.mp hnone), ?_,
    hcount.trans h.count, fun api hapi => h.source api (hsched.symm.trans hapi)⟩
  show machine.sched.isSome = true ↔ _
  rw [hsched]
  exact h.given

theorem Placed.next (h : Placed b s) (e : Event) : Placed b (next b s e) := by
  cases e with
  | run =>
      show Placed b (if Running s.machine then
        match b.steps[s.done]? with
        | some step => ⟨step s.machine, s.done + 1⟩
        | none => s
        else s)
      by_cases hrunning : Running s.machine
      · rw [if_pos hrunning]
        cases hstep : b.steps[s.done]? with
        | none => exact h
        | some step => exact h.step hstep
      · rw [if_neg hrunning]
        exact h
  | tick regs =>
      show Placed b (match s.machine.schedule_next_task regs with
        | some (_, machine) => { s with machine := machine }
        | none => s)
      cases htick : s.machine.schedule_next_task regs with
      | none => exact h
      | some out => exact h.tick htick

/-- A tick follows a null pointer in the window, and where the scheduler has no answer. -/
theorem Placed.safe_iff (h : Placed b s) (e : Event) : Safe s e ↔ Quiet b s e := by
  have hgiven := h.given
  constructor
  · intro hsafe regs he
    have hnot := fun hbad => hsafe regs he (schedule_next_task_none.mpr hbad)
    refine ⟨fun hwindow => hnot ⟨hgiven.mpr hwindow.1, Or.inl (h.before hwindow.2)⟩, ?_⟩
    intro api curr hsched hcurr
    refine (answers_iff hsched hcurr).mp (not_not.mp fun hbad => hnot ⟨?_, Or.inr hbad⟩)
    rw [hsched]
    rfl
  · intro hquiet regs he hnone
    obtain ⟨hwindow, hanswers⟩ := hquiet regs he
    obtain ⟨hsome, hnull | hbad⟩ := schedule_next_task_none.mp hnone
    · refine hwindow ⟨hgiven.mp hsome, Nat.le_of_not_lt fun hlt => h.behind hlt hnull⟩
    · exact hbad hanswers

/-- A module whose scheduler always answers. -/
def ModuleHeader.Sound (mod : ModuleHeader σ) : Prop :=
  ∀ api, mod.api = some api → ∀ procs curr memory, (api.pick_next procs curr memory).1 ≠ none

/-- No tick comes in the window. -/
def Outside (b : Image σ) (s : State σ) (e : Event) : Prop := ∀ regs, e = .tick regs → ¬ Window b s.done

/-- **The timer at boot.**  Whatever modules there are and whenever interrupts come, no null pointer
is followed exactly if no tick comes between the round of the loop that finds a scheduler and the
assignment to `curr_task`, and the scheduler answers every one behind it; and a scheduler that
always answers leaves the first of the two. -/
theorem boot_iff (b : Image σ) (procs : Nat → Process) (memory : σ) (es : List Event) :
    (Throughout (next b) Safe (start procs memory) es ↔
        Throughout (next b) (Quiet b) (start procs memory) es) ∧
      ((∀ mod ∈ b.mods, mod.Sound) → (Throughout (next b) Safe (start procs memory) es ↔
        Throughout (next b) (Outside b) (start procs memory) es)) := by
  have hstart := start_placed b procs memory
  refine ⟨Throughout.congr (I := Placed b) (fun s e hs => hs.safe_iff e) (fun s e hs _ => hs.next e) hstart,
    fun hsound => Throughout.congr (I := Placed b) (fun s e hs => ?_) (fun s e hs _ => hs.next e) hstart⟩
  refine (hs.safe_iff e).trans (forall_congr' fun regs => imp_congr_right fun _ => and_iff_left ?_)
  intro api curr hsched _
  obtain ⟨mod, hmod, hapi⟩ := hs.source api hsched
  exact hsound mod hmod api hapi _ _ _

/-! ### Round-robin -/

/-- The queue of round-robin beside the processes. -/
def rr_kernel (procs : Nat → Process) (curr : Nat) (m : Swap.RoundRobin) : Kernel where
  procs := procs
  curr_task := curr
  next_pid := 0
  listhead := none
  listtail := none
  ready_queue := m.ready_queue
  queue_count := m.queue_count
  current_idx := m.current_idx
  tasks := []

def rr_memory (k : Kernel) : Swap.RoundRobin := ⟨k.ready_queue, k.queue_count, k.current_idx⟩

def rr_api : SCHED_API Swap.RoundRobin where
  add_task := fun procs proc m => rr_memory ((rr_kernel procs 0 m).rr_add_task proc)
  pick_next := fun procs curr m =>
    let out := (rr_kernel procs curr m).rr_pick_next curr
    (some out.1, rr_memory out.2)

def rr_mod : ModuleHeader Swap.RoundRobin where
  magic := MAGICNUM
  type := MT_SCHEDULER
  api := some rr_api
  init := fun m => { m with queue_count := 0, current_idx := 0 }

theorem rr_sound : rr_mod.Sound := by
  intro api hapi procs curr memory
  obtain rfl := Option.some.inj hapi
  exact Option.some_ne_none _

/-- The image of the repository, with the scheduler alone. -/
def rrImage : Image Swap.RoundRobin := ⟨[rr_mod], 1, 0x2000⟩

def emptyQueue : Swap.RoundRobin := ⟨fun _ => none, 0, 0⟩

def noProcess (_ : Nat) : Process := ⟨0, ⟨0, 0⟩, 0, none⟩

/-- A tick right behind the round that finds the scheduler. -/
theorem boot_tick : ¬ ∀ (b : Image Swap.RoundRobin) (procs : Nat → Process) (memory : Swap.RoundRobin)
    (es : List Event), Throughout (next b) Safe (start procs memory) es := by
  intro hall
  have h := hall rrImage noProcess emptyQueue [.run, .run, .tick ⟨0, 0⟩]
  exact h.2.2.1 ⟨0, 0⟩ rfl rfl

/-- With a tick in front of that round, and all steps behind it. -/
theorem rr_boot : Throughout (next rrImage) Safe (start noProcess emptyQueue) [.run, .tick ⟨0, 0⟩, .run] ↔
    Throughout (next rrImage) (Outside rrImage) (start noProcess emptyQueue) [.run, .tick ⟨0, 0⟩, .run] :=
  (boot_iff rrImage noProcess emptyQueue _).2 fun mod hmod => by
    rw [List.mem_singleton.mp hmod]
    exact rr_sound

end Boot

end Eke
