/-
Swapping the scheduler for any module.

The model follows `swap_scheduler` in `kernel/module_swap.cpp`.  A module has memory of its own and the
`sched_data` of the processes; when a task is added it may read the processes and change these two.
`calls` records the calls of `add_task`, with the `sched_data` each finds, and is read by no code.

The walk over the master list unlinks the dead tasks.  What it has kept is a list in front of what is
left, and `prev` is its last node; every line of the walk keeps that (`Walking`).
-/
import Eke.Kernel.Scheduling
import Eke.Lib.Prog

namespace Eke

namespace Swap

open Prog

inductive Message
  | failed (name : List Char)
  | switched (name : List Char) (count : Nat)

/-- The processes, the master list, the active scheduler and what belongs to the new one. -/
structure Tasks (σ : Type) where
  procs : Nat → Process
  sched_data : Nat → Option Nat
  listhead : Option Nat
  listtail : Option Nat
  sched : Option Nat
  memory : σ
  interrupts : Bool
  printed : List Message
  calls : List (Nat × Option Nat)

/-- What a module may change. -/
abbrev Own (σ : Type) : Type := σ × (Nat → Option Nat)

/-- A module: its `module_init`, if it has one, returns an API or null. -/
structure ModuleHeader (σ : Type) where
  name : List Char
  module_init : Option (σ → Option Nat × σ)
  add_task : (Nat → Process) → Nat → Own σ → Own σ

variable {σ : Type}

/-- `new_sched->add_task(p)` -/
def call_add_task (mod : ModuleHeader σ) (p : Nat) : Prog (Tasks σ) Unit :=
  update fun s =>
    let own := mod.add_task s.procs p (s.memory, s.sched_data)
    { s with memory := own.1, sched_data := own.2, calls := s.calls ++ [(p, s.sched_data p)] }

/-- A task is given to the new scheduler, without the data of the old one. -/
def hand_over (mod : ModuleHeader σ) (p : Nat) : Prog (Tasks σ) Unit := do
  update fun s => { s with sched_data := fun q => if q = p then none else s.sched_data q }
  call_add_task mod p

/-- A dead task leaves the list. -/
def unlink (p : Nat) (prev : Option Nat) : Prog (Tasks σ) Unit := do
  match prev with
  | some q => update fun s => { s with
      procs := fun r => if r = q then { s.procs q with next := (s.procs p).next } else s.procs r }
  | none => update fun s => { s with listhead := (s.procs p).next }
  update fun s => if s.listtail = some p then { s with listtail := prev } else s

/-- A round of the walk: the node looked at, the last one kept and the tasks handed over. -/
def visit (mod : ModuleHeader σ) :
    Option Nat × Option Nat × Nat → Prog (Tasks σ) (Option Nat × Option Nat × Nat ⊕ Nat)
  | (none, _, count) => pure (.inr count)
  | (some p, prev, count) => do
      let state ← gets fun s => (s.procs p).state
      if state = 0 then do
        unlink p prev
        let next ← gets fun s => (s.procs p).next
        pure (.inl (next, prev, count))
      else do
        hand_over mod p
        let next ← gets fun s => (s.procs p).next
        pure (.inl (next, some p, count + 1))

/-- The part behind `module_init`. -/
def migrate (fuel : Nat) (mod : ModuleHeader σ) (new_sched : Nat) : Prog (Tasks σ) Bool := do
  let listhead ← gets Tasks.listhead
  let count ← cycle fuel (visit mod) (listhead, none, 0)
  update fun s => { s with sched := some new_sched, interrupts := true }
  update fun s => { s with printed := s.printed ++ [.switched mod.name count] }
  pure true

def swap_scheduler (fuel : Nat) (mod : Option (ModuleHeader σ)) : Prog (Tasks σ) Bool := do
  match mod with
  | none => pure false
  | some m => match m.module_init with
      | none => pure false
      | some init => do
          update fun s => { s with interrupts := false }
          let new_sched ← gets fun s => (init s.memory).1
          update fun s => { s with memory := (init s.memory).2 }
          match new_sched with
          | none => do
              update fun s => { s with interrupts := true, printed := s.printed ++ [.failed m.name] }
              pure false
          | some new_sched => migrate fuel m new_sched

/-! ### Round-robin as a module -/

/-- The statics of `round_robin.cpp`. -/
structure RoundRobin where
  ready_queue : Nat → Option Nat
  queue_count : Nat
  current_idx : Nat

/-- `rr_mod`, with its API at `rr_api`. -/
def rr_mod (rr_api : Nat) : ModuleHeader RoundRobin where
  name := ['R', 'o', 'u', 'n', 'd', 'R', 'o', 'b', 'i', 'n', 'S', 'c', 'h', 'e', 'd']
  module_init := some fun m => (some rr_api, { m with queue_count := 0, current_idx := 0 })
  add_task := fun _ proc own =>
    if own.1.queue_count < 32 then
      ({ own.1 with
        ready_queue := fun i => if i = own.1.queue_count then some proc else own.1.ready_queue i
        queue_count := own.1.queue_count + 1 }, own.2)
    else own

/-! ### The master list -/

open Kernel (Chain)

variable {s t : Tasks σ} {p : Nat} {prev curr : Option Nat} {d l rest : List Nat} {mod : ModuleHeader σ}

/-- The master list is `l`: from `listhead` on, without a cycle, and with `listtail` at its end. -/
structure Formed (s : Tasks σ) (l : List Nat) : Prop where
  chain : Chain s.procs s.listhead l
  nodup : l.Nodup
  tail : s.listtail = l.getLast?

/-- In the walk: `d` has been kept, `rest` is left. -/
structure Walking (s : Tasks σ) (d rest : List Nat) (curr prev : Option Nat) : Prop where
  formed : Formed s (d ++ rest)
  curr : Chain s.procs curr rest
  prev : prev = d.getLast?

/-- What is not touched: but for the links, the processes, and all that is not the list. -/
structure Kept (s t : Tasks σ) : Prop where
  states : ∀ q, (t.procs q).state = (s.procs q).state
  pids : ∀ q, (t.procs q).pid = (s.procs q).pid
  regs : ∀ q, (t.procs q).reg = (s.procs q).reg
  sched : t.sched = s.sched
  interrupts : t.interrupts = s.interrupts
  printed : t.printed = s.printed

theorem Kept.refl (s : Tasks σ) : Kept s s := ⟨fun _ => rfl, fun _ => rfl, fun _ => rfl, rfl, rfl, rfl⟩

theorem Kept.trans {u : Tasks σ} (h : Kept s t) (h' : Kept t u) : Kept s u :=
  ⟨fun q => (h'.states q).trans (h.states q), fun q => (h'.pids q).trans (h.pids q),
    fun q => (h'.regs q).trans (h.regs q), h'.sched.trans h.sched, h'.interrupts.trans h.interrupts,
    h'.printed.trans h.printed⟩

/-- The tail pointer when a node leaves the list. -/
theorem getLast?_unlinked (hnodup : (d ++ p :: rest).Nodup) :
    (if (d ++ p :: rest).getLast? = some p then d.getLast? else (d ++ p :: rest).getLast?) =
      (d ++ rest).getLast? := by
  cases rest with
  | nil => rw [List.getLast?_concat, if_pos rfl, List.append_nil]
  | cons r rest =>
      have hp : p ∉ r :: rest := (List.nodup_cons.mp (List.nodup_append.mp hnodup).2.1).1
      have hlast : (d ++ p :: r :: rest).getLast? = (r :: rest).getLast? := by
        rw [List.getLast?_append_cons, List.getLast?_cons_cons]
      rw [hlast, List.getLast?_append_cons, if_neg]
      intro heq
      exact hp (List.mem_of_getLast? heq)

theorem tail_update (prev : Option Nat) (p : Nat) (u : Tasks σ) :
    (if u.listtail = some p then { u with listtail := prev } else u) =
      { u with listtail := if u.listtail = some p then prev else u.listtail } := by
  split
  · rfl
  · rfl

/-- A dead node leaves the list, and the walk goes on behind it. -/
theorem unlink_ok (h : Walking s d (p :: rest) curr prev) : ∃ t, unlink p prev s = .ok () t ∧
    Walking t d rest (t.procs p).next prev ∧ Kept s t ∧ t.calls = s.calls := by
  obtain ⟨-, hcurr⟩ := h.curr.tail
  have hnodup := h.formed.nodup
  have hleft : (d ++ rest).Nodup :=
    hnodup.sublist ((List.Sublist.refl d).append (List.sublist_cons_self p rest))
  have htail : (if s.listtail = some p then prev else s.listtail) = (d ++ rest).getLast? := by
    rw [h.formed.tail, h.prev]
    exact getLast?_unlinked hnodup
  have hchain := h.formed.chain
  have hprev := h.prev
  rcases List.eq_nil_or_concat' d with rfl | ⟨d', q, rfl⟩
  · obtain rfl : prev = none := hprev
    refine ⟨_, congrArg (Out.ok ()) (tail_update none p { s with listhead := (s.procs p).next }), ?_⟩
    refine ⟨⟨⟨?_, hleft, htail⟩, ?_, rfl⟩, ⟨fun _ => rfl, fun _ => rfl, fun _ => rfl, rfl, rfl, rfl⟩, rfl⟩
    · exact hchain.tail.2
    · exact hcurr
  · have hsome : prev = some q := by rw [hprev, List.getLast?_concat]
    subst hsome
    refine ⟨_, congrArg (Out.ok ()) (tail_update (some q) p { s with
      procs := fun r => if r = q then { s.procs q with next := (s.procs p).next } else s.procs r }), ?_⟩
    have hq : q ∉ d' ∧ q ≠ p ∧ q ∉ rest := by
      rw [List.append_assoc, List.singleton_append] at hnodup
      obtain ⟨-, hnodup', hapart⟩ := List.nodup_append.mp hnodup
      have hbehind := (List.nodup_cons.mp hnodup').1
      exact ⟨fun hmem => hapart q hmem q (List.mem_cons_self ..) rfl,
        fun heq => hbehind (heq ▸ List.mem_cons_self ..), fun hmem => hbehind (List.mem_cons_of_mem p hmem)⟩
    have hsame : ∀ r, r ≠ q → (if r = q then { s.procs q with next := (s.procs p).next } else s.procs r) =
        s.procs r := fun r hr => if_neg hr
    have hlink : Chain (fun r => if r = q then { s.procs q with next := (s.procs p).next } else s.procs r)
        (s.procs p).next rest := by
      refine hcurr.congr fun r hr => ?_
      dsimp only
      rw [hsame r]
      rintro rfl
      exact hq.2.2 hr
    refine ⟨⟨⟨?_, hleft, htail⟩, ?_, hprev⟩, ⟨fun r => ?_, fun r => ?_, fun r => ?_, rfl, rfl, rfl⟩, rfl⟩
    · rw [List.append_assoc] at hchain ⊢
      refine hchain.relink (fun r hr => ?_) ?_
      · dsimp only
        rw [hsame r]
        rintro rfl
        exact hq.1 hr
      · dsimp only
        rw [if_pos rfl]
        exact hlink
    · dsimp only
      rw [hsame p hq.2.1.symm]
      exact hlink
    all_goals
      dsimp only
      split
      · rename_i hr
        rw [hr]
      · rfl

/-! ### The walk -/

/-- A task that is not dead. -/
def Tasks.live (s : Tasks σ) (p : Nat) : Bool := (s.procs p).state ≠ 0

theorem Kept.live (h : Kept s t) : t.live = s.live := by
  funext q
  unfold Tasks.live
  rw [h.states]

/-- A round at a dead task. -/
theorem visit_dead {count : Nat} (h : Walking s d (p :: rest) (some p) prev)
    (hdead : (s.procs p).state = 0) :
    ∃ t next, visit mod (some p, prev, count) s = .ok (.inl (next, prev, count)) t ∧
      Walking t d rest next prev ∧ Kept s t ∧ t.calls = s.calls := by
  obtain ⟨t, ht, hwalking, hkept, hcalls⟩ := unlink_ok h
  refine ⟨t, (t.procs p).next, ?_, hwalking, hkept, hcalls⟩
  rw [visit, bind_gets, if_pos hdead, bind_of_ok ht]
  rfl

theorem hand_over_ok (mod : ModuleHeader σ) (p : Nat) (s : Tasks σ) : ∃ t, hand_over mod p s = .ok () t ∧
    t.procs = s.procs ∧ t.listhead = s.listhead ∧ t.listtail = s.listtail ∧ Kept s t ∧
      t.calls = s.calls ++ [(p, none)] := by
  refine ⟨_, rfl, rfl, rfl, rfl, ⟨fun _ => rfl, fun _ => rfl, fun _ => rfl, rfl, rfl, rfl⟩, ?_⟩
  show s.calls ++ [(p, if p = p then none else s.sched_data p)] = _
  rw [if_pos rfl]

/-- A round at a live task: it is handed over without scheduler data. -/
theorem visit_live {count : Nat} (h : Walking s d (p :: rest) (some p) prev)
    (hlive : (s.procs p).state ≠ 0) :
    ∃ t next, visit mod (some p, prev, count) s = .ok (.inl (next, some p, count + 1)) t ∧
      Walking t (d ++ [p]) rest next (some p) ∧ Kept s t ∧ t.calls = s.calls ++ [(p, none)] := by
  obtain ⟨-, hcurr⟩ := h.curr.tail
  have hlist : d ++ [p] ++ rest = d ++ p :: rest := List.append_assoc d [p] rest
  obtain ⟨t, ht, hprocs, hhead, htail, hkept, hcalls⟩ := hand_over_ok mod p s
  refine ⟨t, (t.procs p).next, ?_, ⟨⟨?_, ?_, ?_⟩, ?_, ?_⟩, hkept, hcalls⟩
  · rw [visit, bind_gets, if_neg hlive, bind_of_ok ht]
    rfl
  · rw [hlist, hprocs, hhead]
    exact h.formed.chain
  · rw [hlist]
    exact h.formed.nodup
  · rw [hlist, htail]
    exact h.formed.tail
  · rw [hprocs]
    exact hcurr
  · exact List.getLast?_concat.symm

/-- The walk keeps the live tasks and hands each of them over. -/
theorem walk_ok : ∀ {rest : List Nat} {n : Nat} {s : Tasks σ} {d : List Nat} {curr prev : Option Nat}
    {count : Nat}, Walking s d rest curr prev → rest.length < n → ∃ t,
      cycle n (visit mod) (curr, prev, count) s = .ok (count + (rest.filter s.live).length) t ∧
        Formed t (d ++ rest.filter s.live) ∧ Kept s t ∧
          t.calls = s.calls ++ (rest.filter s.live).map fun p => (p, none) := by
  intro rest
  induction rest with
  | nil =>
      intro n s d curr prev count h hn
      obtain ⟨m, rfl⟩ : ∃ m, n = m + 1 := ⟨n - 1, by rw [List.length_nil] at hn; omega⟩
      have hend : curr = none := by
        cases curr with
        | none => rfl
        | some p => exact h.curr.elim
      subst hend
      refine ⟨s, cycle_stop rfl, h.formed, .refl s, ?_⟩
      exact (List.append_nil _).symm
  | cons p rest ih =>
      intro n s d curr prev count h hn
      obtain ⟨m, rfl⟩ : ∃ m, n = m + 1 := ⟨n - 1, by rw [List.length_cons] at hn; omega⟩
      have hm : rest.length < m := Nat.lt_of_succ_lt_succ hn
      obtain ⟨rfl, -⟩ := h.curr.tail
      by_cases hdead : (s.procs p).state = 0
      · obtain ⟨u, next, hround, hwalking, hkept, hcalls⟩ := @visit_dead σ s p prev d rest mod count h hdead
        obtain ⟨t, ht, hformed, hkept', hcalls'⟩ := @ih m u d next prev count hwalking hm
        have hfilter : (p :: rest).filter s.live = rest.filter s.live :=
          List.filter_cons_of_neg (by simp [Tasks.live, hdead])
        rw [hkept.live] at ht hformed hcalls'
        rw [hcalls] at hcalls'
        rw [hfilter]
        exact ⟨t, (cycle_next hround).trans ht, hformed, hkept.trans hkept', hcalls'⟩
      · obtain ⟨u, next, hround, hwalking, hkept, hcalls⟩ := @visit_live σ s p prev d rest mod count h hdead
        obtain ⟨t, ht, hformed, hkept', hcalls'⟩ := @ih m u (d ++ [p]) next (some p) (count + 1) hwalking hm
        have hfilter : (p :: rest).filter s.live = p :: rest.filter s.live :=
          List.filter_cons_of_pos (by simp [Tasks.live, hdead])
        rw [hkept.live] at ht hformed hcalls'
        rw [hfilter]
        refine ⟨t, (cycle_next hround).trans (ht.trans ?_), ?_, hkept.trans hkept', ?_⟩
        · rw [List.length_cons, Nat.add_right_comm, Nat.add_assoc]
        · rwa [List.append_assoc] at hformed
        · rw [hcalls', hcalls, List.append_assoc]
          rfl

/-! ### The swap -/

/-- The list is pruned, and the new scheduler has been given its tasks. -/
structure Migrated (s t : Tasks σ) (api : Nat) (ps : List Nat) : Prop where
  formed : Formed t ps
  last : ∀ q, t.listtail = some q → (t.procs q).next = none
  empty : ps = [] → t.listhead = none ∧ t.listtail = none
  calls : t.calls = s.calls ++ ps.map fun p => (p, none)
  sched : t.sched = some api
  states : ∀ q, (t.procs q).state = (s.procs q).state

/-- Neither the list nor the active scheduler has changed, and no task was handed over. -/
structure Refused (s t : Tasks σ) : Prop where
  procs : t.procs = s.procs
  listhead : t.listhead = s.listhead
  listtail : t.listtail = s.listtail
  sched : t.sched = s.sched
  sched_data : t.sched_data = s.sched_data
  calls : t.calls = s.calls

theorem Formed.last (h : Formed s l) {q : Nat} (hq : s.listtail = some q) : (s.procs q).next = none := by
  have hchain := h.chain
  rw [h.tail] at hq
  obtain ⟨front, rfl⟩ := List.getLast?_eq_some_iff.mp hq
  exact hchain.last

theorem Formed.empty (h : Formed s []) : s.listhead = none ∧ s.listtail = none := by
  refine ⟨?_, h.tail⟩
  cases hhead : s.listhead with
  | none => rfl
  | some p =>
      have hchain := h.chain
      rw [hhead] at hchain
      exact hchain.elim

theorem migrate_ok (mod : ModuleHeader σ) (api : Nat) (hl : Formed s l) {fuel : Nat}
    (hfuel : l.length < fuel) :
    ∃ t, migrate fuel mod api s = .ok true t ∧ Migrated s t api (l.filter s.live) := by
  have hstart : Walking s [] l s.listhead none := ⟨hl, hl.chain, rfl⟩
  obtain ⟨t, ht, hformed, hkept, hcalls⟩ := @walk_ok σ mod l fuel s [] s.listhead none 0 hstart hfuel
  rw [List.nil_append] at hformed
  unfold migrate
  rw [bind_gets, bind_of_ok ht]
  refine ⟨_, rfl, ⟨hformed.chain, hformed.nodup, hformed.tail⟩, fun q hq => hformed.last hq,
    fun hnone => ?_, hcalls, rfl, hkept.states⟩
  rw [hnone] at hformed
  exact hformed.empty

/-- **Swapping the scheduler.**  For every module and every well-formed list: the walk ends; if the module
has an API, the live tasks are left in their order and have been handed over once each, in that order; and
if it has none, nothing has changed. -/
theorem swap_exact (mod : ModuleHeader σ) (init : σ → Option Nat × σ) (hinit : mod.module_init = some init)
    (s : Tasks σ) (l : List Nat) (hl : Formed s l) (fuel : Nat) (hfuel : l.length < fuel) :
    (∀ api, (init s.memory).1 = some api → ∃ t, swap_scheduler fuel (some mod) s = .ok true t ∧
      Migrated s t api (l.filter fun p => (s.procs p).state ≠ 0)) ∧
    ((init s.memory).1 = none → ∃ t, swap_scheduler fuel (some mod) s = .ok false t ∧ Refused s t) := by
  unfold swap_scheduler
  simp only [hinit, bind_update, bind_gets]
  constructor
  · intro api hapi
    simp only [hapi]
    have hl' : Formed { s with interrupts := false, memory := (init s.memory).2 } l :=
      ⟨hl.chain, hl.nodup, hl.tail⟩
    obtain ⟨t, ht, hmigrated⟩ := migrate_ok mod api hl' hfuel
    exact ⟨t, ht, hmigrated.formed, hmigrated.last, hmigrated.empty, hmigrated.calls, hmigrated.sched,
      hmigrated.states⟩
  · intro hnone
    simp only [hnone]
    exact ⟨_, rfl, rfl, rfl, rfl, rfl, rfl, rfl⟩

/-- Tasks 1, 2 and 3 in a list, the first and the last of them dead. -/
def threeTasks : Tasks RoundRobin where
  procs p := ⟨p, ⟨p, 0⟩, if p = 2 then 1 else 0, if p = 1 then some 2 else if p = 2 then some 3 else none⟩
  sched_data _ := some 0
  listhead := some 1
  listtail := some 3
  sched := none
  memory := ⟨fun _ => none, 0, 0⟩
  interrupts := true
  printed := []
  calls := []

theorem swap_exact_three :
    (∀ api, some 7 = some api → ∃ t, swap_scheduler 4 (some (rr_mod 7)) threeTasks = .ok true t ∧
      Migrated threeTasks t api ([1, 2, 3].filter fun p => (threeTasks.procs p).state ≠ 0)) ∧
    (some 7 = none → ∃ t, swap_scheduler 4 (some (rr_mod 7)) threeTasks = .ok false t ∧
      Refused threeTasks t) :=
  swap_exact (rr_mod 7) (fun m => (some 7, { m with queue_count := 0, current_idx := 0 })) rfl threeTasks
    [1, 2, 3] ⟨⟨rfl, rfl, rfl, trivial⟩, by decide, rfl⟩ 4 (by decide)

/-! ### The model of the kernel -/

/-- The two models of the kernel are in the same state. -/
structure Agrees (k : Kernel) (s : Tasks RoundRobin) : Prop where
  procs : s.procs = k.procs
  listhead : s.listhead = k.listhead
  listtail : s.listtail = k.listtail
  ready_queue : s.memory.ready_queue = k.ready_queue
  queue_count : s.memory.queue_count = k.queue_count
  current_idx : s.memory.current_idx = k.current_idx

/-- What the walk of the kernel's model does at a dead task. -/
def cut (k : Kernel) (p : Nat) (prev : Option Nat) : Kernel :=
  let k' := match prev with
    | some q => k.modify q fun r => { r with next := (k.procs p).next }
    | none => { k with listhead := (k.procs p).next }
  if k'.listtail = some p then { k' with listtail := prev } else k'

variable {k : Kernel} {r : Tasks RoundRobin}

theorem walk_dead (n : Nat) (prev : Option Nat) (hdead : (k.procs p).state = 0) :
    Kernel.walk (n + 1) (some p) prev k = Kernel.walk n ((cut k p prev).procs p).next prev (cut k p prev) :=
  if_pos hdead

theorem walk_live (n : Nat) (prev : Option Nat) (hlive : (k.procs p).state ≠ 0) :
    Kernel.walk (n + 1) (some p) prev k = Kernel.walk n (k.procs p).next (some p) (k.rr_add_task p) :=
  if_neg hlive

/-- The tail pointer is set in both. -/
theorem Agrees.tail (h : Agrees k r) (p : Nat) (prev : Option Nat) :
    Agrees (if k.listtail = some p then { k with listtail := prev } else k)
      { r with listtail := if r.listtail = some p then prev else r.listtail } := by
  rw [h.listtail]
  split
  · exact ⟨h.procs, h.listhead, rfl, h.ready_queue, h.queue_count, h.current_idx⟩
  · exact ⟨h.procs, h.listhead, rfl, h.ready_queue, h.queue_count, h.current_idx⟩

theorem Agrees.unlink (h : Agrees k r) (p : Nat) (prev : Option Nat) :
    ∃ t, unlink p prev r = .ok () t ∧ Agrees (cut k p prev) t := by
  cases prev with
  | none =>
      refine ⟨_, congrArg (Out.ok ()) (tail_update none p { r with listhead := (r.procs p).next }), ?_⟩
      have hhead : Agrees { k with listhead := (k.procs p).next } { r with listhead := (r.procs p).next } :=
        ⟨h.procs, by rw [h.procs], h.listtail, h.ready_queue, h.queue_count, h.current_idx⟩
      exact hhead.tail p none
  | some q =>
      refine ⟨_, congrArg (Out.ok ()) (tail_update (some q) p { r with
        procs := fun x => if x = q then { r.procs q with next := (r.procs p).next } else r.procs x }), ?_⟩
      have hlink : Agrees (k.modify q fun x => { x with next := (k.procs p).next }) { r with
          procs := fun x => if x = q then { r.procs q with next := (r.procs p).next } else r.procs x } := by
        refine ⟨?_, h.listhead, h.listtail, h.ready_queue, h.queue_count, h.current_idx⟩
        funext x
        unfold Kernel.modify
        dsimp only
        rw [h.procs]
        split
        · rename_i hx
          rw [hx]
        · rfl
      exact hlink.tail p (some q)

theorem Agrees.hand_over (h : Agrees k r) (rr_api p : Nat) :
    ∃ t, hand_over (rr_mod rr_api) p r = .ok () t ∧ Agrees (k.rr_add_task p) t := by
  refine ⟨_, rfl, ?_⟩
  unfold Kernel.rr_add_task rr_mod
  dsimp only
  rw [h.queue_count]
  split
  · exact ⟨h.procs, h.listhead, h.listtail, by dsimp only; rw [h.ready_queue], rfl, h.current_idx⟩
  · exact ⟨h.procs, h.listhead, h.listtail, h.ready_queue, h.queue_count, h.current_idx⟩

/-- A walk that ends is the walk of the kernel's model. -/
theorem walk_agrees {t : Tasks RoundRobin} (rr_api : Nat) : ∀ {n : Nat} {curr prev : Option Nat}
    {count m : Nat} {k : Kernel} {r : Tasks RoundRobin}, Agrees k r →
    cycle n (visit (rr_mod rr_api)) (curr, prev, count) r = .ok m t →
    Agrees (Kernel.walk n curr prev k) t := by
  intro n
  induction n with
  | zero => exact fun _ h => by cases h
  | succ n ih =>
      intro curr prev count m k r h hrun
      cases curr with
      | none =>
          cases hrun
          exact h
      | some p =>
          by_cases hdead : (k.procs p).state = 0
          · obtain ⟨u, hu, hagrees⟩ := h.unlink p prev
            have hround : visit (rr_mod rr_api) (some p, prev, count) r =
                .ok (.inl ((u.procs p).next, prev, count)) u := by
              rw [visit, bind_gets, if_pos (by rw [h.procs]; exact hdead), bind_of_ok hu]
              rfl
            rw [cycle_next hround] at hrun
            rw [walk_dead n prev hdead, ← hagrees.procs]
            exact ih hagrees hrun
          · obtain ⟨u, hu, hagrees⟩ := h.hand_over rr_api p
            have hround : visit (rr_mod rr_api) (some p, prev, count) r =
                .ok (.inl ((u.procs p).next, some p, count + 1)) u := by
              rw [visit, bind_gets, if_neg (by rw [h.procs]; exact hdead), bind_of_ok hu]
              rfl
            rw [cycle_next hround] at hrun
            have hnext : (u.procs p).next = (k.procs p).next := by
              rw [hagrees.procs, Kernel.rr_add_task_procs]
            rw [walk_live n prev hdead, ← hnext]
            exact ih hagrees hrun

/-- A swap to round-robin is that of the kernel's model. -/
theorem swap_agrees {t : Tasks RoundRobin} {b : Bool} (rr_api : Nat) (h : Agrees k r)
    (hrun : swap_scheduler (k.next_pid + 2) (some (rr_mod rr_api)) r = .ok b t) :
    Agrees k.swap_scheduler t := by
  have hstart : Agrees k.rr_init { r with
      interrupts := false, memory := { r.memory with queue_count := 0, current_idx := 0 } } :=
    ⟨h.procs, h.listhead, h.listtail, h.ready_queue, rfl, rfl⟩
  have hmigrate : migrate (k.next_pid + 2) (rr_mod rr_api) rr_api { r with
      interrupts := false, memory := { r.memory with queue_count := 0, current_idx := 0 } } = .ok b t :=
    hrun
  unfold migrate at hmigrate
  rw [bind_gets] at hmigrate
  obtain ⟨count, u, hwalk, hend⟩ := bind_ok_iff.mp hmigrate
  have hu := walk_agrees rr_api hstart hwalk
  rw [hstart.listhead] at hu
  cases hend
  exact ⟨hu.procs, hu.listhead, hu.listtail, hu.ready_queue, hu.queue_count, hu.current_idx⟩

end Swap

end Eke
