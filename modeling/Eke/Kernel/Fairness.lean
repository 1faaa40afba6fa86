/-
No task starves.

The search of `rr_pick_next` never goes past a live task, so each time the scheduler is entered and
picks another task, it has come closer to this one.  `distance` measures that against a queue that is
full, which is why tasks that are added meanwhile do not put it off: between two of its turns a task in
the queue waits for fewer than 32 entries of the scheduler, whatever else happens.
-/
import Eke.Kernel.ReadyQueue
import Eke.Lib.Throughout

namespace Eke

namespace Kernel

variable {s s' : Kernel} {p current : Nat} {j n : Nat} {es : List Event}

/-- A task stands at a place of the queue, and lives. -/
structure StandsAt (s : Kernel) (p j : Nat) : Prop where
  place : j < s.queue_count
  there : s.ready_queue j = some p
  live : s.alive p = true

/-- How far the search may still go before it is at the place. -/
def distance (s : Kernel) (j : Nat) : Nat :=
  if s.current_idx < j then j - s.current_idx else 32 - s.current_idx + j

theorem distance_pos (hidx : s.current_idx < s.queue_count) (hcount : s.queue_count ≤ 32) : 0 < s.distance j := by
  unfold distance
  split <;> omega

theorem distance_le (hplace : j < s.queue_count) (hcount : s.queue_count ≤ 32) : s.distance j ≤ 32 := by
  unfold distance
  split <;> omega

/-- The rounds until the search is at the place. -/
def rounds (s : Kernel) (j : Nat) : Nat :=
  if s.current_idx < j then j - s.current_idx else s.queue_count - s.current_idx + j

/-- The place the next round looks at. -/
theorem next_idx (h : s.current_idx < s.queue_count) : (s.current_idx + 1) % s.queue_count =
    if s.current_idx + 1 = s.queue_count then 0 else s.current_idx + 1 := by
  split
  · rename_i hend
    rw [hend, Nat.mod_self]
  · exact Nat.mod_eq_of_lt (by omega)

/-- One round of the search. -/
theorem distance_next (hidx : s.current_idx < s.queue_count) (hcount : s.queue_count ≤ 32)
    (hplace : j < s.queue_count) (hne : (s.current_idx + 1) % s.queue_count ≠ j) :
    let t : Kernel := { s with current_idx := (s.current_idx + 1) % s.queue_count }
    t.distance j < s.distance j ∧ t.rounds j + 1 = s.rounds j := by
  unfold distance rounds
  dsimp only
  rw [next_idx hidx] at hne ⊢
  by_cases hend : s.current_idx + 1 = s.queue_count
  · rw [if_pos hend] at hne ⊢
    rw [if_pos (show 0 < j by omega), if_pos (show 0 < j by omega), if_neg (show ¬ s.current_idx < j by omega),
      if_neg (show ¬ s.current_idx < j by omega)]
    omega
  · rw [if_neg hend] at hne ⊢
    by_cases hlt : s.current_idx < j
    · rw [if_pos (show s.current_idx + 1 < j by omega), if_pos (show s.current_idx + 1 < j by omega),
        if_pos hlt, if_pos hlt]
      omega
    · rw [if_neg (show ¬ s.current_idx + 1 < j by omega), if_neg (show ¬ s.current_idx + 1 < j by omega),
        if_neg hlt, if_neg hlt]
      omega

/-- The search ends at the task, or has come closer to it. -/
theorem pick_loop_closer (current : Nat) : ∀ (n : Nat) (s : Kernel), s.current_idx < s.queue_count →
    s.queue_count ≤ 32 → StandsAt s p j → s.rounds j ≤ n →
    ∃ q idx, pick_loop current n s = (q, { s with current_idx := idx }) ∧
      (q = p ∨ ({ s with current_idx := idx } : Kernel).distance j < s.distance j) := by
  intro n
  induction n with
  | zero =>
      intro s hidx _ _ hn
      have hpos : 0 < s.rounds j := by
        unfold rounds
        split <;> omega
      omega
  | succ n ih =>
      intro s hidx hcount hp hn
      let t : Kernel := { s with current_idx := (s.current_idx + 1) % s.queue_count }
      by_cases hat : (s.current_idx + 1) % s.queue_count = j
      · refine ⟨p, j, ?_, Or.inl rfl⟩
        rw [pick_loop]
        dsimp only
        rw [hat, hp.there]
        dsimp only
        rw [if_pos (by simpa [alive] using hp.live)]
      · obtain ⟨hcloser, hround⟩ := distance_next hidx hcount hp.place hat
        by_cases hfound : ∃ q, s.ready_queue ((s.current_idx + 1) % s.queue_count) = some q ∧ 0 < (s.procs q).state
        · obtain ⟨q, hq, hlive⟩ := hfound
          refine ⟨q, (s.current_idx + 1) % s.queue_count, ?_, Or.inr hcloser⟩
          rw [pick_loop]
          dsimp only
          rw [hq]
          dsimp only
          rw [if_pos hlive]
        · have hskip : pick_loop current (n + 1) s = pick_loop current n t := by
            rw [pick_loop]
            dsimp only
            split
            · rename_i q hq
              rw [if_neg fun hc => hfound ⟨q, hq, hc⟩]
            · rfl
          have hlt : t.current_idx < t.queue_count := Nat.mod_lt _ (by omega)
          have hround' : t.rounds j + 1 = s.rounds j := hround
          obtain ⟨q, idx, hloop, hend⟩ := ih t hlt hcount ⟨hp.place, hp.there, hp.live⟩ (by omega)
          exact ⟨q, idx, hskip.trans hloop, hend.imp_right fun h => Nat.lt_trans h hcloser⟩

theorem rr_pick_next_closer (hidx : s.current_idx < s.queue_count) (hcount : s.queue_count ≤ 32)
    (hp : StandsAt s p j) (current : Nat) :
    ∃ q idx, s.rr_pick_next current = (q, { s with current_idx := idx }) ∧
      (q = p ∨ ({ s with current_idx := idx } : Kernel).distance j < s.distance j) := by
  have hrounds : s.rounds j ≤ s.queue_count := by
    have := hp.place
    unfold rounds
    split <;> omega
  unfold rr_pick_next
  rw [if_neg (by omega)]
  exact pick_loop_closer current s.queue_count s hidx hcount hp hrounds

/-! ### One event -/

/-- The scheduler is entered. -/
def Event.schedules : Event → Bool
  | .tick _ => true
  | .fault _ => true
  | _ => false

/-- An event other than a swap or an exception of the task itself. -/
def Event.Spares (p : Nat) (s : Kernel) (e : Event) : Prop :=
  e.Possible s ∧ e ≠ .swap ∧ ∀ regs, e = .fault regs → s.curr_task ≠ p

/-- What waiting rests on. -/
structure Waits (s : Kernel) (p j : Nat) : Prop where
  sched : Sched s
  count : s.queue_count ≤ 32
  stands : StandsAt s p j

/-- Entering the scheduler comes closer to the task, or picks it. -/
theorem schedule_closer (h : Waits s p j) {v : Nat} (hv : s.curr_task = p → v = (s.procs p).state) (regs : Registers) :
    let t := s.modify s.curr_task fun q => { q with state := v }
    (t.schedule_next_task regs).2.curr_task = p ∨ (t.schedule_next_task regs).2.distance j < s.distance j := by
  intro t
  let u := t.modify t.curr_task fun q => { q with reg := regs }
  have hstate : (u.procs p).state = (s.procs p).state := by
    by_cases hp : p = s.curr_task
    · have hup : (u.procs p).state = (t.procs p).state := by
        rw [show u.procs p = { t.procs p with reg := regs } from if_pos hp]
      have htp : (t.procs p).state = v := by
        rw [show t.procs p = { s.procs p with state := v } from if_pos hp]
      rw [hup, htp, hv hp.symm]
    · have hsame : u.procs p = s.procs p := (modify_other _ hp).trans (modify_other _ hp)
      rw [hsame]
  have hstands : StandsAt u p j :=
    ⟨h.stands.place, h.stands.there, by
      show decide (0 < (u.procs p).state) = true
      rw [hstate]
      exact h.stands.live⟩
  obtain ⟨q, idx, hpick, hcloser⟩ := rr_pick_next_closer (s := u) h.sched.idx h.count hstands u.curr_task
  have hnext : (t.schedule_next_task regs).2 = { u with current_idx := idx, curr_task := q } := by
    unfold schedule_next_task
    dsimp only
    rw [hpick]
  rw [hnext]
  exact hcloser

theorem fault_next {regs : Registers} {r : Registers × Kernel} (h : s.exception regs = some r) :
    s.next (.fault regs) = r.2 := by
  show ((s.exception regs).map Prod.snd).getD s = r.2
  rw [h]
  rfl

/-- An event keeps the task in its place; it is picked, or the search has come closer if the scheduler
was entered and is where it was if not. -/
theorem spares_step (h : Waits s p j) {e : Event} (he : e.Spares p s) :
    Waits (s.next e) p j ∧
      (if e.schedules then (s.next e).curr_task = p ∨ (s.next e).distance j < s.distance j
        else (s.next e).distance j = s.distance j) := by
  obtain ⟨hpossible, hswap, hfault⟩ := he
  obtain ⟨hsched, -, -⟩ := next_step h.sched hpossible
  cases e with
  | swap => exact absurd rfl hswap
  | create q frame =>
      obtain ⟨l, hl⟩ := h.sched.master
      obtain ⟨d, t, -, htail⟩ := hl.last
      obtain ⟨-, hcount, hqueue, -, -, -, -, hidx, -⟩ := @create_task_rest s q t frame htail
      have hpq : p ≠ q := by
        rintro rfl
        obtain ⟨r, hr, hready⟩ := h.sched.queued j h.stands.place
        exact hpossible (Option.some.inj (hready.symm.trans h.stands.there) ▸ hr)
      obtain ⟨hstate, -, -⟩ := @create_task_state s l q frame p hl hpossible hpq
      have hready : (s.rr_add_task q).ready_queue j = s.ready_queue j := by
        unfold rr_add_task
        split
        · exact if_neg (Nat.ne_of_lt h.stands.place)
        · rfl
      refine ⟨⟨hsched, ?_, ⟨?_, ?_, ?_⟩⟩, ?_⟩
      · show (s.create_task q frame).queue_count ≤ 32
        rw [hcount]
        exact rr_add_task_count h.count
      · show j < (s.create_task q frame).queue_count
        rw [hcount]
        exact Nat.lt_of_lt_of_le h.stands.place rr_add_task_count_le
      · show (s.create_task q frame).ready_queue j = some p
        rw [hqueue, hready]
        exact h.stands.there
      · show decide (0 < ((s.create_task q frame).procs p).state) = true
        rw [hstate]
        exact h.stands.live
      · show (s.create_task q frame).distance j = s.distance j
        unfold distance
        rw [hidx]
  | tick regs =>
      obtain ⟨hr, -⟩ := tick_step h.sched hpossible
      have hcloser := schedule_closer h (v := (s.procs s.curr_task).state) (fun hc => by rw [hc]) regs
      rw [modify_state_self] at hcloser
      refine ⟨⟨hsched, ?_, ⟨?_, ?_, ?_⟩⟩, hcloser⟩
      · exact hr.queue.2 ▸ h.count
      · exact hr.queue.2 ▸ h.stands.place
      · exact (congrFun hr.queue.1 j).trans h.stands.there
      · show decide (0 < ((s.schedule_next_task regs).2.procs p).state) = true
        rw [hr.states]
        exact h.stands.live
  | fault regs =>
      have hpc : s.curr_task ≠ p := hfault regs rfl
      obtain ⟨r, heq, hr, -⟩ := fault_step h.sched hpossible.1 hpossible.2
      have hnext := fault_next heq
      have hcloser := schedule_closer h (v := 0) (fun hc => absurd hc hpc) regs
      have hr2 : r = (s.modify s.curr_task fun q => { q with state := 0 }).schedule_next_task regs :=
        (Option.some.inj ((if_pos hpossible.2).symm.trans heq)).symm
      dsimp only at hcloser
      rw [← hr2] at hcloser
      rw [hnext] at hsched ⊢
      refine ⟨⟨hsched, ?_, ⟨?_, ?_, ?_⟩⟩, hcloser⟩
      · exact hr.queue.2 ▸ h.count
      · exact hr.queue.2 ▸ h.stands.place
      · exact (congrFun hr.queue.1 j).trans h.stands.there
      · show decide (0 < (r.2.procs p).state) = true
        rw [hr.states, modify_other _ (Ne.symm hpc)]
        exact h.stands.live

/-! ### Runs -/

/-- As long as the task is not picked, each entry of the scheduler costs some of the distance. -/
theorem waits_run : ∀ (es : List Event) {s : Kernel}, Waits s p j →
    Throughout next (fun s e => e.Spares p s ∧ ¬ (e.schedules = true ∧ (s.next e).curr_task = p)) s es →
    es.countP Event.schedules < s.distance j := by
  intro es
  induction es with
  | nil => intro s h _; exact distance_pos h.sched.idx h.count
  | cons e es ih =>
      intro s h ⟨⟨he, hmiss⟩, hrest⟩
      obtain ⟨hwaits, hdist⟩ := spares_step h he
      have hlater := ih hwaits hrest
      by_cases hsched : e.schedules = true
      · rw [if_pos hsched] at hdist
        have hless := hdist.resolve_left fun hc => hmiss ⟨hsched, hc⟩
        rw [List.countP_cons_of_pos hsched]
        omega
      · rw [if_neg hsched] at hdist
        rw [List.countP_cons_of_neg hsched]
        omega

/-- In a run that does not pick a task it is missed at every step. -/
theorem missed_or_picked : ∀ (es : List Event) {s : Kernel}, Throughout next (fun s e => e.Spares p s) s es →
    (∃ pre e post, es = pre ++ e :: post ∧ e.schedules = true ∧ ((pre.foldl next s).next e).curr_task = p) ∨
      Throughout next (fun s e => e.Spares p s ∧ ¬ (e.schedules = true ∧ (s.next e).curr_task = p)) s es := by
  intro es
  induction es with
  | nil => intro s _; exact Or.inr trivial
  | cons e es ih =>
      intro s ⟨he, hrest⟩
      by_cases hpick : e.schedules = true ∧ (s.next e).curr_task = p
      · exact Or.inl ⟨[], e, es, rfl, hpick⟩
      rcases ih hrest with ⟨pre, e', post, rfl, hsched, hcurr⟩ | hmissed
      · exact Or.inl ⟨e :: pre, e', post, rfl, hsched, hcurr⟩
      · exact Or.inr ⟨⟨he, hpick⟩, hmissed⟩

theorem steps_count (hs : Steps s s') (h : Sched s) (hcount : s.queue_count ≤ 32) : s'.queue_count ≤ 32 := by
  have hboth : Sched s' ∧ s'.queue_count ≤ 32 := by
    induction hs with
    | refl => exact ⟨h, hcount⟩
    | tail _ hstep ih =>
        obtain ⟨hsched, hle⟩ := ih
        cases hstep with
        | mk e he =>
            refine ⟨(next_step hsched he).1, ?_⟩
            obtain ⟨l, hl⟩ := hsched.master
            cases e with
            | create q frame =>
                obtain ⟨d, t, -, htail⟩ := hl.last
                obtain ⟨-, hc, -⟩ := @create_task_rest _ q t frame htail
                exact hc ▸ rr_add_task_count hle
            | tick regs => exact (tick_step hsched he).1.queue.2 ▸ hle
            | fault regs =>
                obtain ⟨r, heq, hr, -⟩ := fault_step hsched he.1 he.2
                rw [fault_next heq]
                exact hr.queue.2 ▸ hle
            | swap =>
                have hw := swap_walked hl (by rw [hsched.kernel.1]; exact Nat.two_pos)
                exact hw.count ▸ foldl_add_count _ (rr_add_task_count (Nat.zero_le 32))
  exact hboth.2

/-- **No task starves.**  In every state after start-up, a live task in the queue is picked before the
scheduler has been entered 32 times, whatever is created, interrupted and terminated meanwhile, unless
it terminates itself or the scheduler is swapped. -/
theorem no_starvation (s₀ s : Kernel) (hs : Steps s₀.boot s) (p : Nat) (hqueue : some p ∈ s.queue)
    (hlive : 0 < (s.procs p).state) (es : List Event)
    (hes : Throughout next (fun s e => e.Spares p s) s es) (hmany : 32 ≤ es.countP Event.schedules) :
    ∃ pre e post, es = pre ++ e :: post ∧ e.schedules = true ∧ ((pre.foldl next s).next e).curr_task = p := by
  obtain ⟨hsched, -, -⟩ := steps_sched (boot_sched s₀) hs
  have hcount := steps_count hs (boot_sched s₀) (by show 1 ≤ 32; decide)
  obtain ⟨j, hj, hready⟩ := List.mem_map.mp hqueue
  have hwaits : Waits s p j := ⟨hsched, hcount, List.mem_range.mp hj, hready, decide_eq_true hlive⟩
  rcases missed_or_picked es hes with hpicked | hmissed
  · exact hpicked
  · have hfew := waits_run es hwaits hmissed
    have hle := distance_le (s := s) hwaits.stands.place hcount
    omega

/-- Timer interrupts, one after the other. -/
def ticks : Nat → Kernel → List Event
  | 0, _ => []
  | n + 1, s => .tick ⟨s.curr_task, 0⟩ :: ticks n (s.next (.tick ⟨s.curr_task, 0⟩))

theorem ticks_spare (p : Nat) : ∀ (n : Nat) (s : Kernel), Throughout next (fun s e => e.Spares p s) s (ticks n s) := by
  intro n
  induction n with
  | zero => exact fun _ => trivial
  | succ n ih => exact fun s => ⟨⟨rfl, nofun, nofun⟩, ih _⟩

theorem ticks_count : ∀ (n : Nat) (s : Kernel), (ticks n s).countP Event.schedules = n := by
  intro n
  induction n with
  | zero => exact fun _ => rfl
  | succ n ih =>
      intro s
      rw [ticks, List.countP_cons_of_pos rfl, ih]

/-- With the kernel task and one more, over 32 timer interrupts. -/
theorem no_starvation_two :
    ∃ pre e post, ticks 32 (zeroed.boot.next (.create 1 2)) = pre ++ e :: post ∧ e.schedules = true ∧
      ((pre.foldl next (zeroed.boot.next (.create 1 2))).next e).curr_task = 1 :=
  no_starvation zeroed (zeroed.boot.next (.create 1 2))
    (.single (.mk _ _ (show (1 : Nat) ∉ [0] by decide))) 1 (by decide) (by decide) (ticks 32 _)
    (ticks_spare 1 32 _) (Nat.le_of_eq (ticks_count 32 _).symm)

end Kernel

end Eke
