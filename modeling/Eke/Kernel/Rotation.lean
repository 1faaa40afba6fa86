/-
The order in which round-robin picks.

The queue read from behind `current_idx`, around its end, is a rotation of it.  A pick takes the
first live task of that list and goes on behind it, so the live tasks of the list are rotated by
one.  Several picks take them one after the other and start again at the first.
-/
import Eke.Kernel.Scheduling
import Mathlib.Data.List.Rotate

namespace Eke

namespace Kernel

variable {s t u : Kernel} {p current : Nat} {ps rs : List Nat}

/-- The tasks of the queue as the next pick looks at them. -/
def ahead (s : Kernel) (ps : List Nat) : List Nat := ps.rotate (s.current_idx + 1)

/-- The live ones. -/
def liveAhead (s : Kernel) (ps : List Nat) : List Nat := (s.ahead ps).filter s.alive

theorem length_of_queue (hq : s.queue = ps.map some) : ps.length = s.queue_count := by
  rw [← queue_length, hq, List.length_map]

theorem ready_queue_of (hq : s.queue = ps.map some) {i : Nat} (hi : i < s.queue_count) :
    s.ready_queue i = ps[i]? := by
  have hget : s.queue[i]? = some (s.ready_queue i) := by
    unfold queue
    rw [List.getElem?_map, List.getElem?_range hi]
    rfl
  rw [hq, List.getElem?_map] at hget
  obtain ⟨p, hp, hsome⟩ := Option.map_eq_some_iff.mp hget
  rw [hp, hsome]

/-- The task at the next place of the queue. -/
theorem ahead_head (hq : s.queue = ps.map some) {d : Nat} {ds : List Nat} (h : s.ahead ps = d :: ds) :
    0 < s.queue_count ∧ s.ready_queue ((s.current_idx + 1) % s.queue_count) = some d := by
  have hlen := length_of_queue hq
  have hpos : 0 < ps.length := by
    have hsame := congrArg List.length h
    rw [ahead, List.length_rotate, List.length_cons] at hsame
    omega
  have hget := @List.getElem?_rotate _ ps (s.current_idx + 1) 0 hpos
  change (s.ahead ps)[0]? = _ at hget
  rw [h, Nat.zero_add, hlen] at hget
  rw [hlen] at hpos
  exact ⟨hpos, (ready_queue_of hq (Nat.mod_lt _ hpos)).trans hget.symm⟩

/-- Behind that place. -/
theorem ahead_next (hq : s.queue = ps.map some) {d : Nat} {ds : List Nat} (h : s.ahead ps = d :: ds) :
    ({ s with current_idx := (s.current_idx + 1) % s.queue_count } : Kernel).ahead ps = ds ++ [d] := by
  have hrotate : (s.ahead ps).rotate 1 = ps.rotate ((s.current_idx + 1) % ps.length + 1) := by
    rw [ahead, ← List.rotate_mod ps (s.current_idx + 1), List.rotate_rotate]
  rw [h, length_of_queue hq] at hrotate
  show ps.rotate _ = _
  rw [← hrotate, List.rotate_cons_succ, List.rotate_zero]

/-- The search goes over dead tasks to the first live one, and what is then ahead starts behind it. -/
theorem pick_loop_ahead : ∀ {dead : List Nat} {n : Nat} {s : Kernel} {rest : List Nat},
    s.queue = ps.map some → s.ahead ps = dead ++ p :: rest → (∀ q ∈ dead, s.alive q = false) →
    s.alive p = true → dead.length < n →
    ∃ idx, pick_loop current n s = (p, { s with current_idx := idx }) ∧
      ({ s with current_idx := idx } : Kernel).ahead ps = rest ++ dead ++ [p] := by
  intro dead
  induction dead with
  | nil =>
      intro n s rest hq hahead _ halive hn
      obtain ⟨m, rfl⟩ : ∃ m, n = m + 1 := ⟨n - 1, by rw [List.length_nil] at hn; omega⟩
      obtain ⟨-, hready⟩ := ahead_head hq hahead
      refine ⟨(s.current_idx + 1) % s.queue_count, ?_, ?_⟩
      · rw [pick_loop]
        dsimp only
        rw [hready]
        dsimp only
        rw [if_pos (by simpa [alive] using halive)]
      · rw [List.append_nil]
        exact ahead_next hq hahead
  | cons d dead ih =>
      intro n s rest hq hahead hdead halive hn
      obtain ⟨m, rfl⟩ : ∃ m, n = m + 1 := ⟨n - 1, by rw [List.length_cons] at hn; omega⟩
      obtain ⟨-, hready⟩ := ahead_head hq hahead
      have hd : ¬ 0 < (s.procs d).state := by simpa [alive] using hdead d (List.mem_cons_self ..)
      have hnext := (ahead_next hq hahead).trans (List.append_assoc dead (p :: rest) [d])
      obtain ⟨idx, hloop, hrest⟩ := @ih m
        { s with current_idx := (s.current_idx + 1) % s.queue_count } (rest ++ [d]) hq hnext
        (fun q hmem => hdead q (List.mem_cons_of_mem d hmem)) halive (Nat.lt_of_succ_lt_succ hn)
      refine ⟨idx, ?_, ?_⟩
      · rw [pick_loop]
        dsimp only
        rw [hready]
        dsimp only
        rw [if_neg hd]
        exact hloop
      · refine hrest.trans ?_
        rw [List.append_cons rest d dead, List.append_assoc (rest ++ [d])]

/-- A pick returns the first live task ahead, which is the last one then. -/
theorem rr_pick_next_ahead (hq : s.queue = ps.map some) {rest : List Nat} (h : s.liveAhead ps = p :: rest) :
    ∃ idx, s.rr_pick_next current = (p, { s with current_idx := idx }) ∧
      ({ s with current_idx := idx } : Kernel).liveAhead ps = rest ++ [p] := by
  obtain ⟨dead, behind, hahead, hdead, halive, hfilter⟩ := List.filter_eq_cons_iff.mp h
  have hlen : (s.ahead ps).length = s.queue_count := by
    rw [ahead, List.length_rotate, length_of_queue hq]
  have hlt : dead.length < s.queue_count := by
    rw [← hlen, hahead, List.length_append, List.length_cons]
    omega
  obtain ⟨idx, hloop, hnext⟩ := @pick_loop_ahead p current ps dead s.queue_count s behind hq hahead
    (fun q hmem => by simpa using hdead q hmem) halive hlt
  refine ⟨idx, ?_, ?_⟩
  · unfold rr_pick_next
    rw [if_neg (by omega)]
    exact hloop
  · have hnone : dead.filter s.alive = [] := List.filter_eq_nil_iff.mpr hdead
    show List.filter s.alive (({ s with current_idx := idx } : Kernel).ahead ps) = _
    rw [hnext, List.filter_append, List.filter_append, hfilter, hnone, List.append_nil,
      List.filter_cons_of_pos halive, List.filter_nil]

/-! ### Several picks -/

/-- Nothing is added and no state changes; all else may. -/
structure Idle (s t : Kernel) : Prop where
  queue_count : t.queue_count = s.queue_count
  ready_queue : t.ready_queue = s.ready_queue
  current_idx : t.current_idx = s.current_idx
  states : ∀ p, (t.procs p).state = (s.procs p).state

/-- Picks one after the other, by whomever, and the tasks they return. -/
inductive Picks : Kernel → List Nat → Kernel → Prop
  | none {s t : Kernel} (h : Idle s t) : Picks s [] t
  | pick {s t u v : Kernel} {current p : Nat} {rs : List Nat} (h : Idle s t)
      (hpick : t.rr_pick_next current = (p, u)) (hrest : Picks u rs v) : Picks s (p :: rs) v

theorem Idle.refl (s : Kernel) : Idle s s := ⟨rfl, rfl, rfl, fun _ => rfl⟩

theorem Idle.queue (h : Idle s t) : t.queue = s.queue := by
  unfold Kernel.queue
  rw [h.queue_count, h.ready_queue]

theorem Idle.liveAhead (h : Idle s t) (ps : List Nat) : t.liveAhead ps = s.liveAhead ps := by
  have halive : t.alive = s.alive := alive_congr h.states
  unfold Kernel.liveAhead ahead
  rw [h.current_idx, halive]

/-- The picks go through the live tasks ahead, over and over. -/
theorem Picks.at (h : Picks s rs u) : s.queue = ps.map some → s.liveAhead ps ≠ [] →
    ∀ i, i < rs.length → rs[i]? = ((s.liveAhead ps).rotate i).head? := by
  induction h with
  | none _ => exact fun _ _ i hi => absurd hi (Nat.not_lt_zero i)
  | @pick s t u v current p rs hidle hpick hrest ih =>
      intro hq hlive i hi
      rw [← hidle.queue] at hq
      rw [← hidle.liveAhead] at hlive ⊢
      obtain ⟨first, rest, hfirst⟩ := List.exists_cons_of_ne_nil hlive
      obtain ⟨idx, hpick', hnext⟩ := @rr_pick_next_ahead t first current ps hq rest hfirst
      obtain ⟨rfl, rfl⟩ := Prod.mk.inj (hpick.symm.trans hpick')
      cases i with
      | zero =>
          rw [hfirst]
          rfl
      | succ i =>
          have hafter := ih hq (by rw [hnext]; simp) i (Nat.lt_of_succ_lt_succ hi)
          rw [List.getElem?_cons_succ, hafter, hnext, hfirst, List.rotate_cons_succ]

/-- **Round-robin.**  As many picks as there are live tasks return each of them once, in the order of
the queue from behind `current_idx` and around its end, and the next pick starts again. -/
theorem rr_rotates (s u : Kernel) (ps rs : List Nat) (p : Nat) (hqueue : s.queue = ps.map some)
    (hdistinct : ps.Nodup) (hlive : ∃ q ∈ ps, 0 < (s.procs q).state) (hpicks : Picks s (rs ++ [p]) u)
    (hm : rs.length = ps.countP fun q => 0 < (s.procs q).state) :
    rs = (ps.rotate (s.current_idx + 1)).filter (fun q => 0 < (s.procs q).state) ∧ rs.Nodup ∧
      (∀ q, q ∈ rs ↔ q ∈ ps ∧ 0 < (s.procs q).state) ∧ rs.head? = some p := by
  have hmem : ∀ q, q ∈ s.liveAhead ps ↔ q ∈ ps ∧ 0 < (s.procs q).state := by
    intro q
    unfold liveAhead ahead
    rw [List.mem_filter, List.mem_rotate]
    simp [alive]
  have hlen : (s.liveAhead ps).length = rs.length := by
    rw [hm, liveAhead, ← List.countP_eq_length_filter]
    exact (List.rotate_perm ps _).countP_eq _
  have hne : s.liveAhead ps ≠ [] := by
    obtain ⟨q, hq, hstate⟩ := hlive
    exact List.ne_nil_of_mem ((hmem q).mpr ⟨hq, hstate⟩)
  have hat := hpicks.at hqueue hne
  have hrs : rs = s.liveAhead ps := by
    refine List.ext_getElem? fun i => ?_
    rcases Nat.lt_or_ge i rs.length with hlt | hge
    · have hi := hat i (by rw [List.length_append]; omega)
      rw [List.getElem?_append_left hlt] at hi
      rw [hi, List.head?_rotate (by omega)]
    · rw [List.getElem?_eq_none hge, List.getElem?_eq_none (by omega)]
  refine ⟨hrs, ?_, fun q => ?_, ?_⟩
  · rw [hrs]
    exact (List.nodup_rotate.mpr hdistinct).filter _
  · rw [hrs]
    exact hmem q
  · have hlast := hat rs.length (by rw [List.length_append]; exact Nat.lt_succ_self _)
    rw [List.getElem?_concat_length, ← hlen, List.rotate_length] at hlast
    rw [hlast, hrs]

/-- The kernel task and two more, picked in turn. -/
def three : Kernel := (zeroed.boot.create_task 1 0).create_task 2 0

theorem three_picks : ∃ u, Picks three ([1, 2, 0] ++ [1]) u :=
  ⟨_, .pick (.refl _) (show three.rr_pick_next 0 = _ from rfl) (.pick (.refl _)
    (show rr_pick_next _ 1 = _ from rfl) (.pick (.refl _) (show rr_pick_next _ 2 = _ from rfl) (.pick (.refl _)
      (show rr_pick_next _ 0 = _ from rfl) (.none (.refl _)))))⟩

theorem rr_rotates_three :
    [1, 2, 0] = ([0, 1, 2].rotate (three.current_idx + 1)).filter (fun q => 0 < (three.procs q).state) ∧
      [1, 2, 0].Nodup ∧ (∀ q, q ∈ [1, 2, 0] ↔ q ∈ [0, 1, 2] ∧ 0 < (three.procs q).state) ∧
      [1, 2, 0].head? = some 1 := by
  obtain ⟨u, hu⟩ := three_picks
  exact rr_rotates three u [0, 1, 2] [1, 2, 0] 1 rfl (by decide) ⟨0, by decide, by decide⟩ hu (by decide)

end Kernel

end Eke
