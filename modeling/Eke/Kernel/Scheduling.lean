/-
What the scheduler keeps over whole runs.

The master list is a chain of distinct tasks headed by the kernel task, and `Sched`
ties the queue to it: the kernel task stands first in the queue, because every swap
empties the queue and then walks the list from its head.  As the kernel task is never
terminated, a search of the queue always finds a live task, so the fallback of
`rr_pick_next` to the running process is never taken.
-/
import Eke.Kernel.Tasks

namespace Eke

namespace Kernel

variable {s s' : Kernel} {l : List Nat} {p q : Nat}

/-! ### Small facts about the operations -/

@[simp] theorem modify_same (f : Process → Process) : (s.modify p f).procs p = f (s.procs p) := by
  simp [modify]

theorem modify_other (f : Process → Process) (h : q ≠ p) :
    (s.modify p f).procs q = s.procs q := by
  simp [modify, h]

@[simp] theorem rr_add_task_procs : (s.rr_add_task p).procs = s.procs := by
  unfold rr_add_task
  split <;> rfl

@[simp] theorem rr_add_task_curr : (s.rr_add_task p).curr_task = s.curr_task := by
  unfold rr_add_task
  split <;> rfl

@[simp] theorem rr_add_task_pid : (s.rr_add_task p).next_pid = s.next_pid := by
  unfold rr_add_task
  split <;> rfl

@[simp] theorem rr_add_task_head : (s.rr_add_task p).listhead = s.listhead := by
  unfold rr_add_task
  split <;> rfl

@[simp] theorem rr_add_task_tail : (s.rr_add_task p).listtail = s.listtail := by
  unfold rr_add_task
  split <;> rfl

@[simp] theorem rr_add_task_tasks : (s.rr_add_task p).tasks = s.tasks := by
  unfold rr_add_task
  split <;> rfl

@[simp] theorem rr_add_task_idx : (s.rr_add_task p).current_idx = s.current_idx := by
  unfold rr_add_task
  split <;> rfl

/-- The queue as a list. -/
def queue (s : Kernel) : List (Option Nat) := (List.range s.queue_count).map s.ready_queue

theorem rr_add_task_queue : (s.rr_add_task p).queue =
    if s.queue_count < 32 then s.queue ++ [some p] else s.queue := by
  unfold rr_add_task
  split
  · simp only [queue, List.range_succ, List.map_append, List.map_cons, List.map_nil, if_true]
    congr 1
    refine List.map_congr_left fun i hi => ?_
    rw [if_neg (Nat.ne_of_lt (List.mem_range.mp hi))]
  · rfl

@[simp] theorem queue_length : s.queue.length = s.queue_count := by simp [queue]

/-- The state of a process is what scheduling turns on. -/
def alive (s : Kernel) (p : Nat) : Bool := 0 < (s.procs p).state

/-! ### The master list -/

/-- The nodes from a pointer on are `l`. -/
def Chain (procs : Nat → Process) : Option Nat → List Nat → Prop
  | none, [] => True
  | some p, q :: l => p = q ∧ Chain procs (procs p).next l
  | _, _ => False

theorem Chain.congr {procs procs' : Nat → Process} : ∀ {l : List Nat} {o : Option Nat},
    Chain procs o l → (∀ p ∈ l, (procs' p).next = (procs p).next) → Chain procs' o l := by
  intro l
  induction l with
  | nil => intro o h _; cases o <;> exact h
  | cons q l ih =>
      intro o h hnext
      cases o with
      | none => exact h
      | some p =>
          obtain ⟨rfl, h⟩ := h
          refine ⟨rfl, ?_⟩
          rw [hnext p (by simp)]
          exact ih h fun r hr => hnext r (by simp [hr])

/-- What follows a pointer that heads a chain. -/
theorem Chain.tail {procs : Nat → Process} {o : Option Nat} (h : Chain procs o (p :: l)) :
    o = some p ∧ Chain procs (procs p).next l := by
  cases o with
  | none => exact h.elim
  | some q =>
      obtain ⟨rfl, h⟩ := h
      exact ⟨rfl, h⟩

/-- Relinking one node of a chain. -/
theorem Chain.relink {procs procs' : Nat → Process} {t : Nat} {r r' : List Nat} :
    ∀ {l : List Nat} {o : Option Nat}, Chain procs o (l ++ t :: r) →
      (∀ p ∈ l, (procs' p).next = (procs p).next) → Chain procs' (procs' t).next r' →
      Chain procs' o (l ++ t :: r') := by
  intro l
  induction l with
  | nil =>
      intro o h _ hr
      obtain ⟨rfl, -⟩ := h.tail
      exact ⟨rfl, hr⟩
  | cons q l ih =>
      intro o h hnext hr
      obtain ⟨rfl, h'⟩ := Chain.tail (l := l ++ t :: r) h
      refine ⟨rfl, ?_⟩
      rw [hnext q (by simp)]
      exact ih h' (fun r hr => hnext r (by simp [hr])) hr

/-- The end of a chain. -/
theorem Chain.last {procs : Nat → Process} {t : Nat} : ∀ {l : List Nat} {o : Option Nat},
    Chain procs o (l ++ [t]) → (procs t).next = none := by
  intro l
  induction l with
  | nil =>
      intro o h
      obtain ⟨-, h⟩ := h.tail
      cases hn : (procs t).next with
      | none => rfl
      | some q =>
          rw [hn] at h
          exact h.elim
  | cons q l ih =>
      intro o h
      exact ih (Chain.tail (l := l ++ [t]) h).2

/-! ### The invariant -/

/-- The master list is `l`, from the kernel task on. -/
structure Master (s : Kernel) (l : List Nat) : Prop where
  chain : Chain s.procs s.listhead (kernel_task :: l)
  nodup : (kernel_task :: l).Nodup
  tail : s.listtail = (kernel_task :: l).getLast?
  known : ∀ p ∈ kernel_task :: l, p ∈ s.tasks
  count : l.length ≤ s.next_pid

/-- What every state after start-up satisfies. -/
structure Sched (s : Kernel) : Prop where
  kernel : (s.procs kernel_task).state = 2 ∧ (s.procs kernel_task).pid = 0
  first : 0 < s.queue_count ∧ s.ready_queue 0 = some kernel_task
  idx : s.current_idx < s.queue_count
  queued : ∀ i, i < s.queue_count → ∃ p ∈ s.tasks, s.ready_queue i = some p
  curr : s.curr_task ∈ s.tasks ∧ 0 < (s.procs s.curr_task).state
  frames : ∀ p ∈ s.tasks, p ≠ s.curr_task → (s.procs p).reg.owner = p
  master : ∃ l, Master s l

theorem Sched.kernel_known (h : Sched s) : kernel_task ∈ s.tasks := by
  obtain ⟨l, hl⟩ := h.master
  exact hl.known _ (by simp)

/-! ### Picking the next task -/

/-- A search that passes a live task finds one. -/
theorem pick_loop_spec (current : Nat) : ∀ (n : Nat) (s : Kernel), s.current_idx < s.queue_count →
    (∃ k, k < n ∧ ∃ p, s.ready_queue ((s.current_idx + 1 + k) % s.queue_count) = some p ∧
      s.alive p = true) →
    ∃ idx p, idx < s.queue_count ∧ s.ready_queue idx = some p ∧ s.alive p = true ∧
      pick_loop current n s = (p, { s with current_idx := idx }) := by
  intro n
  induction n with
  | zero => rintro s - ⟨k, hk, -⟩; omega
  | succ n ih =>
      rintro s hidx ⟨k, hk, p, hp, halive⟩
      have hlt : (s.current_idx + 1) % s.queue_count < s.queue_count := Nat.mod_lt _ (by omega)
      rw [pick_loop]
      by_cases hfound : ∃ p', s.ready_queue ((s.current_idx + 1) % s.queue_count) = some p' ∧
          s.alive p' = true
      · obtain ⟨p', hp', halive'⟩ := hfound
        refine ⟨_, p', hlt, hp', halive', ?_⟩
        dsimp only
        rw [hp']
        dsimp only
        rw [if_pos (by simpa [alive] using halive')]
      · have hnext : pick_loop current (n + 1) s = pick_loop current n
            { s with current_idx := (s.current_idx + 1) % s.queue_count } := by
          rw [pick_loop]
          dsimp only
          split
          · rename_i p' hp'
            rw [if_neg fun hc => hfound ⟨p', hp', by simpa [alive] using hc⟩]
          · rfl
        rw [pick_loop] at hnext
        rw [hnext]
        have hk0 : k ≠ 0 := by
          rintro rfl
          exact hfound ⟨p, by simpa using hp, halive⟩
        have hmod : ((s.current_idx + 1) % s.queue_count + 1 + (k - 1)) % s.queue_count
            = (s.current_idx + 1 + k) % s.queue_count := by
          rw [Nat.add_assoc, Nat.mod_add_mod, show 1 + (k - 1) = k by omega]
        exact ih { s with current_idx := (s.current_idx + 1) % s.queue_count } hlt
          ⟨k - 1, by omega, p, by dsimp only; rw [hmod]; exact hp, halive⟩

/-- The kernel task is in reach of every search, so the task picked is live. -/
theorem rr_pick_next_spec (h0 : 0 < s.queue_count) (hidx : s.current_idx < s.queue_count)
    (hfirst : s.ready_queue 0 = some kernel_task) (hkernel : s.alive kernel_task = true)
    (current : Nat) :
    ∃ idx p, idx < s.queue_count ∧ s.ready_queue idx = some p ∧ s.alive p = true ∧
      s.rr_pick_next current = (p, { s with current_idx := idx }) := by
  unfold rr_pick_next
  rw [if_neg (by omega)]
  refine pick_loop_spec current s.queue_count s hidx
    ⟨s.queue_count - 1 - s.current_idx, by omega, kernel_task, ?_, hkernel⟩
  rw [show s.current_idx + 1 + (s.queue_count - 1 - s.current_idx) = s.queue_count by omega,
    Nat.mod_self]
  exact hfirst

/-! ### One event -/

/-- What a scheduler entry does: a live task is resumed with its own frame. -/
structure Resumes (s : Kernel) (r : Registers × Kernel) : Prop where
  alive : 0 < (r.2.procs r.2.curr_task).state
  frame : r.1 = (r.2.procs r.2.curr_task).reg
  owner : r.1.owner = r.2.curr_task
  states : ∀ p, (r.2.procs p).state = (s.procs p).state
  pids : ∀ p, (r.2.procs p).pid = (s.procs p).pid
  tasks : r.2.tasks = s.tasks
  links : ∀ p, (r.2.procs p).next = (s.procs p).next
  ends : r.2.listhead = s.listhead ∧ r.2.listtail = s.listtail ∧ r.2.next_pid = s.next_pid
  queue : r.2.ready_queue = s.ready_queue ∧ r.2.queue_count = s.queue_count

/-- The invariant but for the running process, which may just have been terminated. -/
theorem schedule_step (h : Sched s) {v : Nat} (hv : s.curr_task = kernel_task → v = 2)
    {regs : Registers} (hregs : regs.owner = s.curr_task) :
    let t := s.modify s.curr_task fun p => { p with state := v }
    Resumes t (t.schedule_next_task regs) ∧ Sched (t.schedule_next_task regs).2 := by
  intro t
  set u := t.modify t.curr_task fun p => { p with reg := regs } with hu
  have hstate : ∀ p, p ≠ s.curr_task → u.procs p = s.procs p := fun p hp =>
    (modify_other (s := t) _ hp).trans (modify_other _ hp)
  have hcurr : u.procs s.curr_task = { s.procs s.curr_task with state := v, reg := regs } := by
    show (t.modify s.curr_task _).procs s.curr_task = _
    rw [modify_same]
    show { (s.modify s.curr_task _).procs s.curr_task with reg := regs } = _
    rw [modify_same]
  have hnext : ∀ p, (u.procs p).next = (s.procs p).next := by
    intro p
    by_cases hp : p = s.curr_task
    · rw [hp, hcurr]
    · rw [hstate p hp]
  have hkernel : (u.procs kernel_task).state = 2 ∧ (u.procs kernel_task).pid = 0 := by
    by_cases hk : kernel_task = s.curr_task
    · rw [hk, hcurr]
      exact ⟨hv hk.symm, hk ▸ h.kernel.2⟩
    · rw [hstate _ hk]
      exact h.kernel
  obtain ⟨idx, p, hlt, hp, halive, hpick⟩ := rr_pick_next_spec (s := u) h.first.1 h.idx h.first.2
    (by simp [alive, hkernel.1]) u.curr_task
  have hsched : t.schedule_next_task regs
      = ((u.procs p).reg, { u with current_idx := idx, curr_task := p }) := by
    unfold schedule_next_task
    rw [← hu]
    dsimp only
    rw [hpick]
  have halive' : 0 < (u.procs p).state := by simpa [alive] using halive
  have hknown : p ∈ s.tasks := by
    obtain ⟨p', hp', hq⟩ := h.queued idx hlt
    change s.ready_queue idx = some p at hp
    rw [hq] at hp
    exact Option.some.inj hp ▸ hp'
  have hframes : ∀ q ∈ s.tasks, (u.procs q).reg.owner = q := by
    intro q hq
    by_cases hc : q = s.curr_task
    · rw [hc, hcurr]
      exact hregs
    · rw [hstate q hc]
      exact h.frames q hq hc
  have hstates : ∀ q, (u.procs q).state = (t.procs q).state := by
    intro q
    by_cases hq : q = t.curr_task
    · rw [hu, hq, modify_same]
    · rw [hu, modify_other _ hq]
  have hpids : ∀ q, (u.procs q).pid = (t.procs q).pid := by
    intro q
    by_cases hq : q = t.curr_task
    · rw [hu, hq, modify_same]
    · rw [hu, modify_other _ hq]
  have hlinks : ∀ q, (u.procs q).next = (t.procs q).next := by
    intro q
    by_cases hq : q = t.curr_task
    · rw [hu, hq, modify_same]
    · rw [hu, modify_other _ hq]
  rw [hsched]
  refine ⟨⟨halive', rfl, hframes p hknown, hstates, hpids, rfl, hlinks, ⟨rfl, rfl, rfl⟩,
    ⟨rfl, rfl⟩⟩, ⟨hkernel, h.first, hlt, h.queued,
    ⟨hknown, halive'⟩, fun q hq _ => hframes q hq, ?_⟩⟩
  obtain ⟨l, hl⟩ := h.master
  exact ⟨l, hl.chain.congr fun q _ => hnext q, hl.nodup, hl.tail, hl.known, hl.count⟩

/-- A tick leaves the running process as it is. -/
theorem modify_state_self : s.modify p (fun q => { q with state := (s.procs p).state }) = s := by
  have hprocs : (fun q => if q = p then { s.procs q with state := (s.procs p).state } else s.procs q)
      = s.procs := by
    funext q
    by_cases hq : q = p
    · rw [if_pos hq, hq]
    · rw [if_neg hq]
  show { s with procs := _ } = s
  rw [hprocs]

theorem tick_step (h : Sched s) {regs : Registers} (hregs : regs.owner = s.curr_task) :
    Resumes s (s.schedule_next_task regs) ∧ Sched (s.schedule_next_task regs).2 := by
  have := schedule_step h (v := (s.procs s.curr_task).state)
    (fun hk => by rw [hk]; exact h.kernel.1) hregs
  dsimp only at this
  rwa [modify_state_self] at this

/-- An exception terminates the running process and resumes another one. -/
theorem fault_step (h : Sched s) {regs : Registers} (hregs : regs.owner = s.curr_task)
    (hpid : (s.procs s.curr_task).pid ≠ 0) :
    ∃ r, s.exception regs = some r ∧
      Resumes (s.modify s.curr_task fun p => { p with state := 0 }) r ∧ Sched r.2 := by
  have hne : s.curr_task ≠ kernel_task := fun hc => hpid (by rw [hc]; exact h.kernel.2)
  refine ⟨_, if_pos hpid, ?_⟩
  exact schedule_step h (v := 0) (fun hc => absurd hc hne) hregs

/-! ### A new task -/

/-- What `create_task` does to the structures. -/
theorem create_task_procs {t frame : Nat} (htail : s.listtail = some t) (ht : t ≠ p) (q : Nat) :
    ((s.create_task p frame).procs q) =
      if q = t then { s.procs t with next := some p }
      else if q = p then { pid := s.next_pid + 1, reg := ⟨p, frame⟩, state := 1, next := none }
      else s.procs q := by
  simp only [create_task, modify, rr_add_task_tail, htail, rr_add_task_procs]
  by_cases hq : q = t
  · rw [if_pos hq, if_pos hq, hq, if_neg ht]
  · rw [if_neg hq, if_neg hq]

theorem create_task_rest {t frame : Nat} (htail : s.listtail = some t) :
    (s.create_task p frame).queue = (s.rr_add_task p).queue ∧
      (s.create_task p frame).queue_count = (s.rr_add_task p).queue_count ∧
      (s.create_task p frame).ready_queue = (s.rr_add_task p).ready_queue ∧
      (s.create_task p frame).listhead = s.listhead ∧
      (s.create_task p frame).listtail = some p ∧
      (s.create_task p frame).tasks = p :: s.tasks ∧
      (s.create_task p frame).curr_task = s.curr_task ∧
      (s.create_task p frame).current_idx = s.current_idx ∧
      (s.create_task p frame).next_pid = s.next_pid + 1 := by
  simp only [create_task, rr_add_task_tail, modify, htail]
  unfold rr_add_task
  split <;> simp only [queue, and_self]

/-- The last node of the master list. -/
theorem Master.last (h : Master s l) : ∃ d t, kernel_task :: l = d ++ [t] ∧ s.listtail = some t := by
  refine ⟨(kernel_task :: l).dropLast, (kernel_task :: l).getLast (by simp),
    (List.dropLast_append_getLast _).symm, ?_⟩
  rw [h.tail, List.getLast?_eq_some_getLast]

/-- The new task ends up last on the master list. -/
theorem Master.create {frame : Nat} (h : Master s l) (hp : p ∉ s.tasks) :
    Master (s.create_task p frame) (l ++ [p]) := by
  obtain ⟨d, t, hd, htail⟩ := h.last
  have hknown : ∀ q ∈ kernel_task :: l, q ≠ p := by
    rintro q hq rfl
    exact hp (h.known q hq)
  have ht : t ≠ p := hknown t (by rw [hd]; simp)
  obtain ⟨-, -, -, hhead, htail', htasks, -, -, hpid⟩ :=
    @create_task_rest s p _ frame htail
  have hprocs := @create_task_procs s p _ frame htail ht
  have hchain := h.chain
  have hnd := h.nodup
  refine ⟨?_, ?_, ?_, ?_, ?_⟩
  · rw [hhead]
    rw [hd] at hchain hnd
    rw [← List.cons_append, hd, List.append_assoc]
    refine hchain.relink (fun q hq => ?_) ?_
    · have hqt : q ≠ t := by
        rintro rfl
        exact absurd rfl ((List.nodup_append.mp hnd).2.2 q hq q (by simp))
      have hqp : q ≠ p := hknown q (by rw [hd]; simp [hq])
      rw [hprocs, if_neg hqt, if_neg hqp]
    · have hpn : ((s.create_task p frame).procs p).next = none := by
        rw [hprocs, if_neg (Ne.symm ht), if_pos rfl]
      rw [hprocs, if_pos rfl]
      refine ⟨rfl, ?_⟩
      rw [hpn]
      trivial
  · rw [← List.cons_append]
    refine List.nodup_append.mpr ⟨hnd, by simp, fun q hq r hr => ?_⟩
    rw [List.mem_singleton.mp hr]
    exact hknown q hq
  · rw [htail', ← List.cons_append, List.getLast?_concat]
  · intro q hq
    rw [htasks]
    rw [← List.cons_append] at hq
    rcases List.mem_append.mp hq with hq | hq
    · exact List.mem_cons_of_mem _ (h.known q hq)
    · rw [List.mem_singleton.mp hq]
      exact List.mem_cons_self
  · rw [hpid, List.length_append, List.length_singleton]
    exact Nat.succ_le_succ h.count

/-- The states of the tasks there were. -/
theorem create_task_state {frame q : Nat} (h : Master s l) (hp : p ∉ s.tasks) (hq : q ≠ p) :
    ((s.create_task p frame).procs q).state = (s.procs q).state ∧
      ((s.create_task p frame).procs q).pid = (s.procs q).pid ∧
      ((s.create_task p frame).procs q).reg = (s.procs q).reg := by
  obtain ⟨d, t, hd, htail⟩ := h.last
  have ht : t ≠ p := by
    rintro rfl
    exact hp (h.known t (by rw [hd]; simp))
  rw [@create_task_procs s p _ frame htail ht]
  by_cases hqt : q = t
  · rw [if_pos hqt, hqt]
    exact ⟨rfl, rfl, rfl⟩
  · rw [if_neg hqt, if_neg hq]
    exact ⟨rfl, rfl, rfl⟩

theorem create_task_new {frame : Nat} (h : Master s l) (hp : p ∉ s.tasks) :
    ((s.create_task p frame).procs p).state = 1 ∧
      ((s.create_task p frame).procs p).pid = s.next_pid + 1 ∧
      ((s.create_task p frame).procs p).reg.owner = p := by
  obtain ⟨d, t, hd, htail⟩ := h.last
  have ht : t ≠ p := by
    rintro rfl
    exact hp (h.known t (by rw [hd]; simp))
  rw [@create_task_procs s p _ frame htail ht, if_neg (Ne.symm ht), if_pos rfl]
  exact ⟨rfl, rfl, rfl⟩

/-- The entries of a queue that a task was added to. -/
theorem rr_add_task_entry {i : Nat} (hi : i < (s.rr_add_task p).queue_count) :
    i < s.queue_count ∧ (s.rr_add_task p).ready_queue i = s.ready_queue i ∨
      (s.rr_add_task p).ready_queue i = some p := by
  unfold rr_add_task at hi ⊢
  split
  · rename_i hlt
    rw [if_pos hlt] at hi
    by_cases heq : i = s.queue_count
    · exact Or.inr (if_pos heq)
    · exact Or.inl ⟨by dsimp only at hi; omega, if_neg heq⟩
  · rename_i hlt
    rw [if_neg hlt] at hi
    exact Or.inl ⟨hi, rfl⟩

theorem rr_add_task_count_le : s.queue_count ≤ (s.rr_add_task p).queue_count := by
  unfold rr_add_task
  split
  · exact Nat.le_succ _
  · exact Nat.le_refl _

theorem rr_add_task_first (h : 0 < s.queue_count) :
    (s.rr_add_task p).ready_queue 0 = s.ready_queue 0 := by
  unfold rr_add_task
  split
  · exact if_neg (by omega)
  · rfl

theorem create_step {frame : Nat} (h : Sched s) (hp : p ∉ s.tasks) :
    Sched (s.create_task p frame) := by
  obtain ⟨l, hl⟩ := h.master
  obtain ⟨d, t, hd, htail⟩ := hl.last
  obtain ⟨-, hcount, hqueue, -, -, htasks, hcurr, hidx, -⟩ :=
    @create_task_rest s p _ frame htail
  have hne : ∀ q ∈ s.tasks, q ≠ p := by
    rintro q hq rfl
    exact hp hq
  have hold : ∀ q ∈ s.tasks, _ := fun q hq =>
    @create_task_state s _ p frame q hl hp (hne q hq)
  have hkernel := hold _ h.kernel_known
  refine ⟨⟨hkernel.1.trans h.kernel.1, hkernel.2.1.trans h.kernel.2⟩, ?_, ?_, fun i hi => ?_, ?_,
    fun q hq hqc => ?_, ⟨_, hl.create hp⟩⟩
  · rw [hcount, hqueue, rr_add_task_first h.first.1]
    exact ⟨Nat.lt_of_lt_of_le h.first.1 rr_add_task_count_le, h.first.2⟩
  · rw [hcount, hidx]
    exact Nat.lt_of_lt_of_le h.idx rr_add_task_count_le
  · rw [hcount] at hi
    rw [hqueue, htasks]
    rcases rr_add_task_entry hi with ⟨hi, heq⟩ | heq
    · obtain ⟨q, hq, hqi⟩ := h.queued i hi
      exact ⟨q, List.mem_cons_of_mem _ hq, heq.trans hqi⟩
    · exact ⟨p, List.mem_cons_self, heq⟩
  · rw [hcurr, htasks, (hold _ h.curr.1).1]
    exact ⟨List.mem_cons_of_mem _ h.curr.1, h.curr.2⟩
  · rw [htasks] at hq
    rw [hcurr] at hqc
    rcases List.mem_cons.mp hq with rfl | hq
    · exact (create_task_new hl hp).2.2
    · rw [(hold q hq).2.2]
      exact h.frames q hq hqc

/-! ### A swap -/

/-- What the walk has done when it has kept `done` and `rest` was still ahead. -/
structure Walked (s s' : Kernel) (done rest : List Nat) : Prop where
  chain : Chain s'.procs s'.listhead (done ++ rest.filter s.alive)
  tail : s'.listtail = (done ++ rest.filter s.alive).getLast?
  same : ∀ q, (s'.procs q).state = (s.procs q).state ∧ (s'.procs q).pid = (s.procs q).pid ∧
    (s'.procs q).reg = (s.procs q).reg
  queue : s'.ready_queue = ((rest.filter s.alive).foldl rr_add_task s).ready_queue
  count : s'.queue_count = ((rest.filter s.alive).foldl rr_add_task s).queue_count
  curr : s'.curr_task = s.curr_task
  idx : s'.current_idx = s.current_idx
  pid : s'.next_pid = s.next_pid
  tasks : s'.tasks = s.tasks

theorem alive_congr (h : ∀ q, (s'.procs q).state = (s.procs q).state) : s'.alive = s.alive := by
  funext q
  unfold alive
  rw [h]

/-- Two kernels with the same queue take the same tasks. -/
theorem foldl_add_congr : ∀ (ps : List Nat) {s s' : Kernel}, s'.ready_queue = s.ready_queue →
    s'.queue_count = s.queue_count →
    (ps.foldl rr_add_task s').ready_queue = (ps.foldl rr_add_task s).ready_queue ∧
      (ps.foldl rr_add_task s').queue_count = (ps.foldl rr_add_task s).queue_count := by
  intro ps
  induction ps with
  | nil => intro s s' hq hc; exact ⟨hq, hc⟩
  | cons p ps ih =>
      intro s s' hq hc
      refine ih ?_ ?_
      · unfold rr_add_task
        rw [hc]
        split
        · rw [hq]
        · exact hq
      · unfold rr_add_task
        rw [hc]
        split
        · rfl
        · exact hc

theorem walk_spec : ∀ (rest : List Nat) {n : Nat} {s : Kernel} {d : List Nat} {q : Nat},
    rest.length < n → Chain s.procs s.listhead (d ++ q :: rest) → (d ++ q :: rest).Nodup →
    s.listtail = (d ++ q :: rest).getLast? →
    Walked s (walk n (s.procs q).next (some q) s) (d ++ [q]) rest := by
  intro rest
  induction rest with
  | nil =>
      intro n s d q hn hchain hnd htail
      obtain ⟨m, rfl⟩ : ∃ m, n = m + 1 := ⟨n - 1, by simp at hn; omega⟩
      rw [hchain.last]
      refine ⟨?_, ?_, fun _ => ⟨rfl, rfl, rfl⟩, rfl, rfl, rfl, rfl, rfl, rfl⟩
      · simpa [walk] using hchain
      · simpa [walk] using htail
  | cons p rest ih =>
      intro n s d q hn hchain hnd htail
      obtain ⟨m, rfl⟩ : ∃ m, n = m + 1 := ⟨n - 1, by simp at hn; omega⟩
      have hsuffix : Chain s.procs (s.procs q).next (p :: rest) := by
        have : ∀ {d : List Nat} {o : Option Nat}, Chain s.procs o (d ++ q :: p :: rest) →
            Chain s.procs (s.procs q).next (p :: rest) := by
          intro d
          induction d with
          | nil => intro o h; exact h.tail.2
          | cons r d ihd => intro o h; exact ihd (Chain.tail (l := d ++ q :: p :: rest) h).2
        exact this hchain
      obtain ⟨hqn, hrest⟩ := hsuffix.tail
      have hnd' : (q :: p :: rest).Nodup := (List.nodup_append.mp hnd).2.1
      have hpq : p ≠ q := fun hc => by simp [hc] at hnd'
      have hdq : q ∉ d := fun hc => absurd rfl ((List.nodup_append.mp hnd).2.2 q hc q (by simp))
      rw [hqn, walk]
      by_cases hdead : (s.procs p).state = 0
      · -- The node is unlinked: the last kept node now points behind it.
        rw [if_pos hdead]
        have hfilter : (p :: rest).filter s.alive = rest.filter s.alive := by
          rw [List.filter_cons, if_neg (by simp [alive, hdead])]
        dsimp only
        set u := s.modify q fun r => { r with next := (s.procs p).next } with hu
        set v := if u.listtail = some p then { u with listtail := some q } else u with hv
        have hvprocs : v.procs = u.procs := by
          rw [hv]
          split <;> rfl
        have huq : (u.procs q).next = (s.procs p).next := by
          rw [hu, modify_same]
        have huo : ∀ r, r ≠ q → u.procs r = s.procs r := fun r hr => modify_other _ hr
        have hsame : ∀ r, (v.procs r).state = (s.procs r).state ∧
            (v.procs r).pid = (s.procs r).pid ∧ (v.procs r).reg = (s.procs r).reg := by
          intro r
          rw [hvprocs]
          by_cases hr : r = q
          · rw [hr, hu, modify_same]
            exact ⟨rfl, rfl, rfl⟩
          · rw [huo r hr]
            exact ⟨rfl, rfl, rfl⟩
        have hcurr : (v.procs p).next = (v.procs q).next := by
          rw [hvprocs, huq, huo p hpq]
        have hrest' : Chain u.procs (u.procs q).next rest := by
          rw [huq]
          refine hrest.congr fun r hr => ?_
          rw [huo r]
          rintro rfl
          simp [hr] at hnd'
        have hchain' : Chain v.procs v.listhead (d ++ q :: rest) := by
          have hhead : v.listhead = s.listhead := by
            rw [hv]
            split <;> rfl
          rw [hvprocs, hhead]
          refine hchain.relink (fun r hr => ?_) hrest'
          rw [huo r]
          rintro rfl
          exact hdq hr
        have hndr : (d ++ q :: rest).Nodup :=
          hnd.sublist ((List.Sublist.refl d).append (by simp))
        have htail' : v.listtail = (d ++ q :: rest).getLast? := by
          rw [hv]
          cases hr : rest with
          | nil =>
              have : u.listtail = some p := by
                show s.listtail = _
                rw [htail, hr]
                simp
              rw [if_pos this]
              simp
          | cons r rest' =>
              have hl : s.listtail = (d ++ q :: rest).getLast? := by
                rw [htail, hr]
                simp [List.getLast?_append]
              have hmem : ∀ x, (d ++ q :: rest).getLast? = some x → x ≠ p := by
                rintro x hx rfl
                have hx' : x ∈ d ++ q :: rest := List.mem_of_getLast? hx
                have := (List.nodup_append.mp hnd)
                rcases List.mem_append.mp hx' with hx' | hx'
                · exact absurd rfl (this.2.2 x hx' x (by simp))
                · rcases List.mem_cons.mp hx' with hx' | hx'
                  · exact hpq hx'
                  · simp [hx'] at hnd'
              rw [if_neg]
              · show s.listtail = _
                rw [hl, hr]
              · show ¬ s.listtail = some p
                rw [hl]
                exact fun hc => hmem p hc rfl
        have hw := ih (n := m) (by simp at hn; omega) hchain' hndr htail'
        have hal : v.alive = s.alive := alive_congr fun r => (hsame r).1
        have hvq : v.ready_queue = s.ready_queue ∧ v.queue_count = s.queue_count ∧
            v.curr_task = s.curr_task ∧ v.current_idx = s.current_idx ∧
            v.next_pid = s.next_pid ∧ v.tasks = s.tasks := by
          rw [hv]
          split <;> exact ⟨rfl, rfl, rfl, rfl, rfl, rfl⟩
        have hfold := foldl_add_congr (rest.filter s.alive) hvq.1 hvq.2.1
        rw [hcurr]
        refine ⟨?_, ?_, fun r => ?_, ?_, ?_, hw.curr.trans hvq.2.2.1, hw.idx.trans hvq.2.2.2.1,
          hw.pid.trans hvq.2.2.2.2.1, hw.tasks.trans hvq.2.2.2.2.2⟩
        · rw [hfilter, ← hal]
          exact hw.chain
        · rw [hfilter, ← hal]
          exact hw.tail
        · exact ⟨(hw.same r).1.trans (hsame r).1, (hw.same r).2.1.trans (hsame r).2.1,
            (hw.same r).2.2.trans (hsame r).2.2⟩
        · rw [hfilter, hw.queue, hal]
          exact hfold.1
        · rw [hfilter, hw.count, hal]
          exact hfold.2
      · rw [if_neg hdead]
        have hfilter : (p :: rest).filter s.alive = p :: rest.filter s.alive := by
          rw [List.filter_cons, if_pos (by simp [alive]; omega)]
        have hal : (s.rr_add_task p).alive = s.alive := alive_congr fun r => by simp
        have hw := ih (n := m) (s := s.rr_add_task p) (d := d ++ [q]) (q := p)
          (by simp at hn; omega) (by simpa using hchain) (by simpa using hnd) (by simpa using htail)
        rw [rr_add_task_procs] at hw
        refine ⟨?_, ?_, fun r => ?_, ?_, ?_, ?_, ?_, ?_, ?_⟩
        · have := hw.chain
          rw [hal] at this
          simpa [hfilter] using this
        · have := hw.tail
          rw [hal] at this
          simpa [hfilter] using this
        · simpa using hw.same r
        · rw [hfilter, hw.queue, hal]
          rfl
        · rw [hfilter, hw.count, hal]
          rfl
        · simpa using hw.curr
        · simpa using hw.idx
        · simpa using hw.pid
        · simpa using hw.tasks

/-- The whole walk of a swap, which starts at the kernel task and keeps it. -/
theorem swap_walked (hl : Master s l) (hkernel : 0 < (s.procs kernel_task).state) :
    Walked (s.rr_init.rr_add_task kernel_task) s.swap_scheduler [kernel_task] l := by
  obtain ⟨hhead, -⟩ := hl.chain.tail
  have hfuel := hl.count
  have hwalk : s.swap_scheduler = walk (s.next_pid + 1)
      ((s.rr_init.rr_add_task kernel_task).procs kernel_task).next (some kernel_task)
      (s.rr_init.rr_add_task kernel_task) := by
    unfold swap_scheduler
    show walk (s.next_pid + 1 + 1) s.listhead none s.rr_init = _
    rw [hhead, walk, if_neg (by show ¬ (s.procs kernel_task).state = 0; omega),
      rr_add_task_procs]
  rw [hwalk]
  refine walk_spec l (d := []) (by omega) ?_ hl.nodup ?_
  · rw [rr_add_task_procs, rr_add_task_head]
    exact hl.chain
  · rw [rr_add_task_tail]
    exact hl.tail

theorem foldl_add_count_le : ∀ (ps : List Nat) {s : Kernel},
    s.queue_count ≤ (ps.foldl rr_add_task s).queue_count := by
  intro ps
  induction ps with
  | nil => intro s; exact Nat.le_refl _
  | cons p ps ih => intro s; exact Nat.le_trans rr_add_task_count_le (ih (s := s.rr_add_task p))

theorem foldl_add_first : ∀ (ps : List Nat) {s : Kernel}, 0 < s.queue_count →
    (ps.foldl rr_add_task s).ready_queue 0 = s.ready_queue 0 := by
  intro ps
  induction ps with
  | nil => intro s _; rfl
  | cons p ps ih =>
      intro s h
      rw [List.foldl_cons, ih (Nat.lt_of_lt_of_le h rr_add_task_count_le), rr_add_task_first h]

theorem foldl_add_entry : ∀ (ps : List Nat) {s : Kernel} {i : Nat},
    i < (ps.foldl rr_add_task s).queue_count →
    i < s.queue_count ∧ (ps.foldl rr_add_task s).ready_queue i = s.ready_queue i ∨
      ∃ p ∈ ps, (ps.foldl rr_add_task s).ready_queue i = some p := by
  intro ps
  induction ps with
  | nil => intro s i hi; exact Or.inl ⟨hi, rfl⟩
  | cons p ps ih =>
      intro s i hi
      rcases ih (s := s.rr_add_task p) hi with ⟨hlt, heq⟩ | ⟨q, hq, heq⟩
      · rcases rr_add_task_entry hlt with ⟨hlt', heq'⟩ | heq'
        · exact Or.inl ⟨hlt', heq.trans heq'⟩
        · exact Or.inr ⟨p, List.mem_cons_self, heq.trans heq'⟩
      · exact Or.inr ⟨q, List.mem_cons_of_mem _ hq, heq⟩

theorem swap_master (hl : Master s l) (hkernel : 0 < (s.procs kernel_task).state) :
    Master s.swap_scheduler (l.filter s.alive) := by
  have hw := swap_walked hl hkernel
  have hal : (s.rr_init.rr_add_task kernel_task).alive = s.alive :=
    alive_congr fun r => by rw [rr_add_task_procs]; rfl
  have hchain := hw.chain
  have htail := hw.tail
  rw [hal] at hchain htail
  have hsub : (kernel_task :: l.filter s.alive).Sublist (kernel_task :: l) :=
    List.filter_sublist.cons_cons _
  refine ⟨hchain, hl.nodup.sublist hsub, htail, fun p hp => ?_, ?_⟩
  · rw [hw.tasks, rr_add_task_tasks]
    exact hl.known p (hsub.subset hp)
  · rw [hw.pid, rr_add_task_pid]
    exact Nat.le_trans (List.length_filter_le _ _) hl.count

/-- No process changes across a swap but for its link. -/
theorem swap_same (h : Sched s) (q : Nat) :
    (s.swap_scheduler.procs q).state = (s.procs q).state ∧
      (s.swap_scheduler.procs q).pid = (s.procs q).pid ∧
      (s.swap_scheduler.procs q).reg = (s.procs q).reg := by
  obtain ⟨l, hl⟩ := h.master
  have := (swap_walked hl (by rw [h.kernel.1]; omega)).same q
  rw [rr_add_task_procs] at this
  exact this

theorem swap_step (h : Sched s) : Sched s.swap_scheduler := by
  obtain ⟨l, hl⟩ := h.master
  have hk : 0 < (s.procs kernel_task).state := by rw [h.kernel.1]; omega
  have hw := swap_walked hl hk
  have hone : (s.rr_init.rr_add_task kernel_task).queue_count = 1 ∧
      (s.rr_init.rr_add_task kernel_task).ready_queue 0 = some kernel_task := ⟨rfl, rfl⟩
  have hcount : 0 < s.swap_scheduler.queue_count := by
    rw [hw.count]
    exact Nat.lt_of_lt_of_le (by rw [hone.1]; omega) (foldl_add_count_le _)
  have hcurr : s.swap_scheduler.curr_task = s.curr_task := by
    rw [hw.curr, rr_add_task_curr]
    rfl
  have htasks : s.swap_scheduler.tasks = s.tasks := by
    rw [hw.tasks, rr_add_task_tasks]
    rfl
  refine ⟨?_, ⟨hcount, ?_⟩, ?_, fun i hi => ?_, ?_, fun p hp hpc => ?_, ⟨_, swap_master hl hk⟩⟩
  · rw [(swap_same h _).1, (swap_same h _).2.1]
    exact h.kernel
  · rw [hw.queue, foldl_add_first _ (by rw [hone.1]; omega)]
    exact hone.2
  · rw [hw.idx, rr_add_task_idx]
    exact hcount
  · rw [hw.count] at hi
    rw [hw.queue, htasks]
    rcases foldl_add_entry _ hi with ⟨hlt, heq⟩ | ⟨p, hp, heq⟩
    · obtain rfl : i = 0 := by rw [hone.1] at hlt; omega
      exact ⟨kernel_task, h.kernel_known, heq.trans hone.2⟩
    · exact ⟨p, hl.known p (List.mem_cons_of_mem _ (List.mem_filter.mp hp).1), heq⟩
  · rw [hcurr, htasks, (swap_same h _).1]
    exact h.curr
  · rw [htasks] at hp
    rw [hcurr] at hpc
    rw [(swap_same h p).2.2]
    exact h.frames p hp hpc

/-! ### Runs -/

theorem boot_sched (s : Kernel) : Sched s.boot := by
  refine ⟨⟨rfl, rfl⟩, ⟨Nat.one_pos, rfl⟩, Nat.one_pos, fun i hi => ?_, ⟨by simp [boot, init_tasks,
    rr_add_task, rr_init, modify], Nat.two_pos⟩, fun p hp hpc => ?_, ⟨[], ?_⟩⟩
  · obtain rfl : i = 0 := Nat.lt_one_iff.mp hi
    exact ⟨kernel_task, List.mem_singleton_self _, rfl⟩
  · exact absurd (List.mem_singleton.mp hp) hpc
  · exact ⟨⟨rfl, trivial⟩, by simp, rfl, fun p hp => hp, Nat.le_refl _⟩

/-- The invariant over one event, and what becomes of the tasks there are. -/
theorem next_step (h : Sched s) {e : Event} (he : e.Possible s) :
    Sched (s.next e) ∧ (∀ p ∈ s.tasks, p ∈ (s.next e).tasks) ∧
      ∀ p ∈ s.tasks, (s.procs p).state = 0 → ((s.next e).procs p).state = 0 := by
  obtain ⟨l, hl⟩ := h.master
  cases e with
  | create p frame =>
      obtain ⟨d, t, -, htail⟩ := hl.last
      obtain ⟨-, -, -, -, -, htasks, -, -, -⟩ := @create_task_rest s p _ frame htail
      refine ⟨create_step h he, fun q hq => ?_, fun q hq hz => ?_⟩
      · show q ∈ (s.create_task p frame).tasks
        rw [htasks]
        exact List.mem_cons_of_mem _ hq
      · have hqp : q ≠ p := by
          rintro rfl
          exact he hq
        exact (create_task_state hl he hqp).1.trans hz
  | tick regs =>
      obtain ⟨hr, hs⟩ := tick_step h he
      refine ⟨hs, fun p hp => ?_, fun p _ hz => (hr.states p).trans hz⟩
      show p ∈ (s.schedule_next_task regs).2.tasks
      rw [hr.tasks]
      exact hp
  | fault regs =>
      obtain ⟨r, heq, hr, hs⟩ := fault_step h he.1 he.2
      have hnext : s.next (.fault regs) = r.2 := by simp [next, heq]
      rw [hnext]
      refine ⟨hs, fun p hp => ?_, fun p _ hz => ?_⟩
      · rw [hr.tasks]
        exact hp
      · rw [hr.states]
        by_cases hpc : p = s.curr_task
        · rw [hpc, modify_same]
        · rw [modify_other _ hpc]
          exact hz
  | swap =>
      refine ⟨swap_step h, fun p hp => ?_, fun p _ hz => (swap_same h p).1.trans hz⟩
      have := (swap_walked hl (by rw [h.kernel.1]; omega)).tasks
      rw [rr_add_task_tasks] at this
      show p ∈ s.swap_scheduler.tasks
      rw [this]
      exact hp

theorem steps_sched (h : Sched s) (hs : Steps s s') :
    Sched s' ∧ (∀ p ∈ s.tasks, p ∈ s'.tasks) ∧
      ∀ p ∈ s.tasks, (s.procs p).state = 0 → (s'.procs p).state = 0 := by
  induction hs with
  | refl => exact ⟨h, fun _ => id, fun _ _ => id⟩
  | tail _ hstep ih =>
      obtain ⟨hsched, hmem, hzero⟩ := ih
      cases hstep with
      | mk e he =>
          obtain ⟨hsched', hmem', hzero'⟩ := next_step hsched he
          exact ⟨hsched', fun p hp => hmem' p (hmem p hp),
            fun p hp hz => hzero' p (hmem p hp) (hzero p hp hz)⟩

/-- What entering the scheduler resumes. -/
theorem resumed_spec (h : Sched s) {e : Event} (he : e.Possible s) {f : Registers}
    (hf : s.resumed e = some f) :
    f.owner = (s.next e).curr_task ∧ f = ((s.next e).procs (s.next e).curr_task).reg ∧
      0 < ((s.next e).procs (s.next e).curr_task).state := by
  cases e with
  | create p frame => cases hf
  | tick regs =>
      obtain ⟨hr, -⟩ := tick_step h he
      obtain rfl := Option.some.inj hf
      exact ⟨hr.owner, hr.frame, hr.alive⟩
  | fault regs =>
      obtain ⟨r, heq, hr, -⟩ := fault_step h he.1 he.2
      have hnext : s.next (.fault regs) = r.2 := by simp [next, heq]
      have hr1 : r.1 = f := by simpa [resumed, heq] using hf
      rw [hnext, ← hr1]
      exact ⟨hr.owner, hr.frame, hr.alive⟩
  | swap => cases hf

/-- **A terminated process is never resumed.**  From start-up on, whatever enters the
scheduler gets the saved frame of the task that is then current, and that task is live;
and a task that had state 0 at some point never gets its frame back. -/
theorem terminated_never_resumed (s₀ s : Kernel) (hs : Steps s₀.boot s) :
    (∀ e f, Event.Possible s e → s.resumed e = some f →
      f.owner = (s.next e).curr_task ∧ f = ((s.next e).procs (s.next e).curr_task).reg ∧
        0 < ((s.next e).procs (s.next e).curr_task).state) ∧
    ∀ p ∈ s.tasks, (s.procs p).state = 0 → ∀ s', Steps s s' → ∀ e f, Event.Possible s' e →
      s'.resumed e = some f → f.owner ≠ p := by
  obtain ⟨hsched, -, -⟩ := steps_sched (boot_sched s₀) hs
  refine ⟨fun e f he hf => resumed_spec hsched he hf, fun p hp hz s' hs' e f he hf hc => ?_⟩
  obtain ⟨hsched', hmem, hzero⟩ := steps_sched hsched hs'
  obtain ⟨howner, -, halive⟩ := resumed_spec hsched' he hf
  obtain ⟨-, -, hzero'⟩ := next_step hsched' he
  have := hzero' p (hmem p hp) (hzero p hp hz)
  rw [← hc, howner] at this
  omega

/-- With one task besides the kernel, at the first tick. -/
theorem terminated_never_resumed_first :
    (∀ e f, Event.Possible (zeroed.boot.next (.create 1 2)) e →
      (zeroed.boot.next (.create 1 2)).resumed e = some f →
      f.owner = ((zeroed.boot.next (.create 1 2)).next e).curr_task ∧
        f = (((zeroed.boot.next (.create 1 2)).next e).procs
          ((zeroed.boot.next (.create 1 2)).next e).curr_task).reg ∧
        0 < (((zeroed.boot.next (.create 1 2)).next e).procs
          ((zeroed.boot.next (.create 1 2)).next e).curr_task).state) ∧
    ∀ p ∈ (zeroed.boot.next (.create 1 2)).tasks,
      ((zeroed.boot.next (.create 1 2)).procs p).state = 0 →
      ∀ s', Steps (zeroed.boot.next (.create 1 2)) s' → ∀ e f, Event.Possible s' e →
        s'.resumed e = some f → f.owner ≠ p :=
  terminated_never_resumed zeroed (zeroed.boot.next (.create 1 2))
    (.single (.mk _ _ (show (1 : Nat) ∉ [0] by decide)))

end Kernel

end Eke
