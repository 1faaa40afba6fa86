/-
The ready queue and the master list.

The queue holds 32 tasks and a task that does not fit is dropped without notice, while
`create_task` links it all the same.  As long as every task created finds room, the
live tasks of the master list are those of the queue, each once (`Agree`); a swap then
finds no more than 32 of them and takes them all.
-/
import Eke.Kernel.Scheduling
import Mathlib.Data.List.Nodup
import Mathlib.Data.List.Perm.Subperm
import Mathlib.Data.Option.Basic

namespace Eke

namespace Kernel

variable {s s' : Kernel} {l : List Nat} {p q : Nat}

/-- The nodes reached from a pointer in at most `n` steps. -/
def follow (procs : Nat → Process) : Nat → Option Nat → List Nat
  | 0, _ => []
  | _ + 1, none => []
  | n + 1, some p => p :: follow procs n (procs p).next

/-- The master list, from `listhead` on. -/
def master (s : Kernel) : List Nat := follow s.procs (s.next_pid + 1) s.listhead

/-- Every live process on the master list occurs exactly once in the queue. -/
def AllQueued (s : Kernel) : Prop :=
  ∀ p ∈ s.master, 0 < (s.procs p).state → s.queue.count (some p) = 1

theorem follow_chain {procs : Nat → Process} : ∀ {l : List Nat} {n : Nat} {o : Option Nat},
    Chain procs o l → l.length ≤ n → follow procs n o = l := by
  intro l
  induction l with
  | nil =>
      intro n o h _
      cases o with
      | none => cases n <;> rfl
      | some p => exact h.elim
  | cons q l ih =>
      intro n o h hn
      obtain ⟨rfl, h'⟩ := h.tail
      obtain ⟨m, rfl⟩ : ∃ m, n = m + 1 := ⟨n - 1, by simp at hn; omega⟩
      rw [follow, ih h' (by simpa using hn)]

theorem Master.master_eq (h : Master s l) : s.master = kernel_task :: l :=
  follow_chain h.chain (by simpa using h.count)

/-! ### The agreement -/

/-- The two representations agree. -/
structure Agree (s : Kernel) : Prop where
  sched : Sched s
  count : s.queue_count ≤ 32
  queued : ∀ l, Master s l → ∀ p ∈ kernel_task :: l, 0 < (s.procs p).state →
    s.queue.count (some p) = 1

theorem Agree.allQueued (h : Agree s) : AllQueued s := by
  obtain ⟨l, hl⟩ := h.sched.master
  intro p hp
  rw [hl.master_eq] at hp
  exact h.queued l hl p hp

theorem Master.unique {l' : List Nat} (h : Master s l) (h' : Master s l') : l = l' := by
  have := h.master_eq.symm.trans h'.master_eq
  exact (List.cons.inj this).2

/-- An entry of the queue is a task. -/
theorem Sched.mem_queue (h : Sched s) (hp : some p ∈ s.queue) : p ∈ s.tasks := by
  obtain ⟨i, hi, heq⟩ := List.mem_map.mp hp
  obtain ⟨q, hq, hqi⟩ := h.queued i (List.mem_range.mp hi)
  rw [hqi] at heq
  exact Option.some.inj heq ▸ hq

theorem rr_add_task_count : s.queue_count ≤ 32 → (s.rr_add_task p).queue_count ≤ 32 := by
  intro h
  unfold rr_add_task
  split
  · dsimp only
    omega
  · exact h

/-- Tasks that all find room are appended in order. -/
theorem foldl_add_queue : ∀ (ps : List Nat) {s : Kernel}, s.queue_count + ps.length ≤ 32 →
    (ps.foldl rr_add_task s).queue = s.queue ++ ps.map some := by
  intro ps
  induction ps with
  | nil => intro s _; simp
  | cons p ps ih =>
      intro s h
      simp only [List.length_cons] at h
      have hlt : s.queue_count < 32 := by omega
      have hcount : (s.rr_add_task p).queue_count = s.queue_count + 1 := by
        unfold rr_add_task
        rw [if_pos hlt]
      rw [List.foldl_cons, ih (by omega), rr_add_task_queue, if_pos hlt, List.map_cons,
        List.append_assoc, List.singleton_append]

theorem foldl_add_count : ∀ (ps : List Nat) {s : Kernel}, s.queue_count ≤ 32 →
    (ps.foldl rr_add_task s).queue_count ≤ 32 := by
  intro ps
  induction ps with
  | nil => intro s h; exact h
  | cons p ps ih => intro s h; exact ih (rr_add_task_count h)

theorem queue_congr (hq : s'.ready_queue = s.ready_queue) (hc : s'.queue_count = s.queue_count) :
    s'.queue = s.queue := by
  unfold queue
  rw [hq, hc]

theorem boot_agree (s : Kernel) : Agree s.boot := by
  refine ⟨boot_sched s, (by decide : 1 ≤ 32), fun l hl p hp _ => ?_⟩
  have hnil : l = [] := List.eq_nil_of_length_eq_zero (Nat.le_zero.mp hl.count)
  rw [hnil] at hp
  rw [List.mem_singleton.mp hp]
  rfl

/-! ### One event -/

/-- A task created while the queue has room. -/
theorem Agree.create {frame : Nat} (h : Agree s) (hp : p ∉ s.tasks) (hroom : s.queue_count < 32) :
    Agree (s.create_task p frame) := by
  obtain ⟨l, hl⟩ := h.sched.master
  obtain ⟨d, t, -, htail⟩ := hl.last
  obtain ⟨hqueue, hcount, -⟩ := @create_task_rest s p _ frame htail
  refine ⟨create_step h.sched hp, ?_, fun l' hl' q hq halive => ?_⟩
  · rw [hcount]
    exact rr_add_task_count h.count
  · obtain rfl := hl'.unique (hl.create hp)
    rw [hqueue, rr_add_task_queue, if_pos hroom, List.count_append]
    have hnew : s.queue.count (some p) = 0 :=
      List.count_eq_zero.mpr fun hc => hp (h.sched.mem_queue hc)
    have hq' : q ∈ (kernel_task :: l) ++ [p] := hq
    rcases List.mem_append.mp hq' with hold | hlast
    · have hqp : q ≠ p := fun hc => hp (hc ▸ hl.known q hold)
      rw [(create_task_state hl hp hqp).1] at halive
      rw [h.queued l hl q hold halive, List.count_eq_zero.mpr (by simp [hqp])]
    · rw [List.mem_singleton.mp hlast, hnew]
      simp

/-- Entering the scheduler, the running process terminated or not. -/
theorem Agree.resumes (h : Agree s) {t : Kernel} {r : Registers × Kernel} (hr : Resumes t r)
    (hs : Sched r.2) (hprocs : ∀ q, (t.procs q).next = (s.procs q).next ∧
      ((t.procs q).state = (s.procs q).state ∨ (t.procs q).state = 0))
    (hends : t.listhead = s.listhead ∧ t.listtail = s.listtail ∧ t.next_pid = s.next_pid)
    (htasks : t.tasks = s.tasks)
    (hqueue : t.ready_queue = s.ready_queue ∧ t.queue_count = s.queue_count) : Agree r.2 := by
  refine ⟨hs, ?_, fun l hl q hq halive => ?_⟩
  · rw [hr.queue.2, hqueue.2]
    exact h.count
  · rw [queue_congr (hr.queue.1.trans hqueue.1) (hr.queue.2.trans hqueue.2)]
    have hmaster : Master s l := by
      refine ⟨?_, hl.nodup, ?_, fun p hp => ?_, ?_⟩
      · rw [← hends.1, ← hr.ends.1]
        exact hl.chain.congr fun p _ => ((hr.links p).trans (hprocs p).1).symm
      · rw [← hends.2.1, ← hr.ends.2.1]
        exact hl.tail
      · rw [← htasks, ← hr.tasks]
        exact hl.known p hp
      · rw [← hends.2.2, ← hr.ends.2.2]
        exact hl.count
    rw [hr.states] at halive
    rcases (hprocs q).2 with heq | heq
    · exact h.queued l hmaster q hq (heq ▸ halive)
    · omega

theorem Agree.tick (h : Agree s) {regs : Registers} (hregs : regs.owner = s.curr_task) :
    Agree (s.schedule_next_task regs).2 := by
  obtain ⟨hr, hs⟩ := tick_step h.sched hregs
  exact h.resumes hr hs (fun _ => ⟨rfl, Or.inl rfl⟩) ⟨rfl, rfl, rfl⟩ rfl ⟨rfl, rfl⟩

theorem Agree.fault (h : Agree s) {regs : Registers} (he : Event.Possible s (.fault regs)) :
    Agree (s.next (.fault regs)) := by
  obtain ⟨r, heq, hr, hs⟩ := fault_step h.sched he.1 he.2
  have hnext : s.next (.fault regs) = r.2 := by simp [next, heq]
  rw [hnext]
  refine h.resumes hr hs (fun q => ?_) ⟨rfl, rfl, rfl⟩ rfl ⟨rfl, rfl⟩
  by_cases hq : q = s.curr_task
  · rw [hq, modify_same]
    exact ⟨rfl, Or.inr rfl⟩
  · rw [modify_other _ hq]
    exact ⟨rfl, Or.inl rfl⟩

/-- Distinct entries of the queue are no more than its length. -/
theorem Agree.length_le (h : Agree s) (hl : Master s l) :
    (kernel_task :: l.filter s.alive).length ≤ s.queue_count := by
  have hsub : (kernel_task :: l.filter s.alive).Sublist (kernel_task :: l) :=
    List.filter_sublist.cons_cons _
  have hnd : ((kernel_task :: l.filter s.alive).map some).Nodup :=
    (hl.nodup.sublist hsub).map (Option.some_injective _)
  have hmem : ∀ o ∈ (kernel_task :: l.filter s.alive).map some, o ∈ s.queue := by
    intro o ho
    obtain ⟨p, hp, rfl⟩ := List.mem_map.mp ho
    have halive : 0 < (s.procs p).state := by
      rcases List.mem_cons.mp hp with rfl | hp
      · rw [h.sched.kernel.1]
        omega
      · simpa [alive] using (List.mem_filter.mp hp).2
    have hone := h.queued l hl p (hsub.subset hp) halive
    exact List.count_pos_iff.mp (by omega)
  have := (hnd.subperm hmem).length_le
  rwa [List.length_map, queue_length] at this

/-- A swap takes every live task over. -/
theorem Agree.swap (h : Agree s) : Agree s.swap_scheduler := by
  obtain ⟨l, hl⟩ := h.sched.master
  have hk : 0 < (s.procs kernel_task).state := by rw [h.sched.kernel.1]; omega
  have hw := swap_walked hl hk
  have hlen := h.length_le hl
  have hcount := h.count
  have hal : (s.rr_init.rr_add_task kernel_task).alive = s.alive :=
    alive_congr fun r => by rw [rr_add_task_procs]; rfl
  have hone : (s.rr_init.rr_add_task kernel_task).queue_count = 1 := rfl
  have hqueue : s.swap_scheduler.queue = (kernel_task :: l.filter s.alive).map some := by
    rw [queue_congr hw.queue hw.count, hal, foldl_add_queue]
    · rfl
    · rw [hone]
      simp only [List.length_cons] at hlen
      omega
  refine ⟨swap_step h.sched, ?_, fun l' hl' p hp _ => ?_⟩
  · rw [hw.count]
    exact foldl_add_count _ (by rw [hone]; omega)
  · obtain rfl := hl'.unique (swap_master hl hk)
    rw [hqueue]
    refine List.count_eq_one_of_mem ?_ (List.mem_map_of_mem hp)
    exact hl'.nodup.map (Option.some_injective _)

/-! ### Runs -/

/-- A task is created only while the queue has room. -/
def Event.HasRoom (s : Kernel) : Event → Prop
  | .create _ _ => s.queue_count < 32
  | _ => True

inductive RoomyStep : Kernel → Kernel → Prop
  | mk (s : Kernel) (e : Event) : e.Possible s → e.HasRoom s → RoomyStep s (s.next e)

def RoomySteps : Kernel → Kernel → Prop := Relation.ReflTransGen RoomyStep

theorem Agree.step (h : Agree s) (hs : RoomyStep s s') : Agree s' := by
  cases hs with
  | mk e he hroom =>
      cases e with
      | create p frame => exact h.create he hroom
      | tick regs => exact h.tick he
      | fault regs => exact h.fault he
      | swap => exact h.swap

theorem Agree.steps (h : Agree s) (hs : RoomySteps s s') : Agree s' := by
  induction hs with
  | refl => exact h
  | tail _ hstep ih => exact ih.step hstep

/-- A task created while the queue is full is on the list and not in the queue. -/
theorem create_full {frame : Nat} (h : Sched s) (hp : p ∉ s.tasks) (hfull : 32 ≤ s.queue_count) :
    ¬ AllQueued (s.create_task p frame) := by
  obtain ⟨l, hl⟩ := h.master
  obtain ⟨d, t, -, htail⟩ := hl.last
  obtain ⟨hqueue, -⟩ := @create_task_rest s p _ frame htail
  intro hall
  have hone := hall p (by rw [(hl.create hp).master_eq]; simp)
    (by rw [(create_task_new hl hp).1]; omega)
  rw [hqueue, rr_add_task_queue, if_neg (by omega)] at hone
  exact hp (h.mem_queue (List.count_pos_iff.mp (by omega)))

/-- **Live tasks and the queue.**  While every task created finds room in the queue, every
live process of the master list is in it exactly once; the first task created without
room breaks that. -/
theorem live_tasks_queued (s₀ s : Kernel) (h : RoomySteps s₀.boot s) :
    AllQueued s ∧ ∀ p frame, p ∉ s.tasks → 32 ≤ s.queue_count →
      ¬ AllQueued (s.create_task p frame) := by
  have hagree := (boot_agree s₀).steps h
  exact ⟨hagree.allQueued, fun p frame hp hfull => create_full hagree.sched hp hfull⟩

/-- With one task besides the kernel. -/
theorem live_tasks_queued_first :
    AllQueued (zeroed.boot.next (.create 1 2)) ∧
      ∀ p frame, p ∉ (zeroed.boot.next (.create 1 2)).tasks →
        32 ≤ (zeroed.boot.next (.create 1 2)).queue_count →
        ¬ AllQueued ((zeroed.boot.next (.create 1 2)).create_task p frame) :=
  live_tasks_queued zeroed (zeroed.boot.next (.create 1 2))
    (.single (.mk _ _ (show (1 : Nat) ∉ [0] by decide) (show 1 < 32 by decide)))

/-- The state after `n` tasks were created at start-up. -/
def crowd : Nat → Kernel
  | 0 => zeroed.boot
  | n + 1 => (crowd n).next (.create (n + 1) 0)

theorem crowd_steps : ∀ n : Nat, n ≤ 31 → Steps zeroed.boot (crowd n) ∧
    (∀ p ∈ (crowd n).tasks, p ≤ n) ∧ (crowd n).queue_count = n + 1 := by
  intro n
  induction n with
  | zero =>
      intro _
      exact ⟨.refl, fun p hp => Nat.le_of_eq (List.mem_singleton.mp hp), rfl⟩
  | succ n ih =>
      intro hn
      obtain ⟨hsteps, htasks, hcount⟩ := ih (by omega)
      have hfresh : n + 1 ∉ (crowd n).tasks := fun hc => by have := htasks _ hc; omega
      obtain ⟨hsched, -, -⟩ := steps_sched (boot_sched zeroed) hsteps
      obtain ⟨l, hl⟩ := hsched.master
      obtain ⟨d, t, -, htail⟩ := hl.last
      obtain ⟨-, hcount', -, -, -, htasks', -⟩ :=
        @create_task_rest _ (n + 1) _ 0 htail
      refine ⟨hsteps.tail (.mk _ _ hfresh), fun p hp => ?_, ?_⟩
      · change p ∈ ((crowd n).create_task (n + 1) 0).tasks at hp
        rw [htasks'] at hp
        rcases List.mem_cons.mp hp with rfl | hp
        · exact Nat.le_refl _
        · exact Nat.le_succ_of_le (htasks p hp)
      · change ((crowd n).create_task (n + 1) 0).queue_count = _
        rw [hcount']
        unfold rr_add_task
        rw [if_pos (by omega)]
        dsimp only
        rw [hcount]

/-- The 32nd task beside the kernel is lost. -/
theorem live_tasks_lost : ¬ ∀ s₀ s : Kernel, Steps s₀.boot s → AllQueued s := by
  intro hall
  obtain ⟨hsteps, htasks, hcount⟩ := crowd_steps 31 (Nat.le_refl _)
  generalize crowd 31 = k at hsteps htasks hcount
  obtain ⟨hsched, -, -⟩ := steps_sched (boot_sched zeroed) hsteps
  have hfresh : 32 ∉ k.tasks := fun hc => by have := htasks _ hc; omega
  exact create_full hsched hfresh (by omega)
    (hall zeroed _ (hsteps.tail (.mk k (.create 32 0) hfresh)))

end Kernel

end Eke
