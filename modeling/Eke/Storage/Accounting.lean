/-
The sector allocator over whole runs.

After `spmm_init` on a loaded bit map, callers may call the five operations in any
order and with any arguments.  `Books` is what all of them keep: the counter is the
number of clear bits, the bits behind the last block are those that were loaded, the
hint stays in range, and a block that was handed out and not freed since is marked.
-/
import Eke.Storage.Spmm

namespace Eke

/-- A call of the allocator. -/
inductive SpmmCall
  | alloc
  | alloc_contiguous (count : Nat)
  | free (block : Nat)
  | free_contiguous (start_block count : Nat)
  | mark_used (block : Nat)

/-- A device in use, with the blocks that are out: handed out and not freed since. -/
structure DevUse where
  mem : Store
  dev : BLOCKDEV_API
  out : Nat → Prop

namespace SpmmCall

/-- The value a call returns, 0 where it returns none, and what it leaves behind. -/
def run (c : SpmmCall) (m : Store) (dev : BLOCKDEV_API) : Nat × Store × BLOCKDEV_API :=
  match c with
  | alloc => spmm_alloc m dev
  | alloc_contiguous count => spmm_alloc_contiguous count m dev
  | free block => (0, spmm_free block m dev)
  | free_contiguous start_block count => (0, spmm_free_contiguous start_block count m dev)
  | mark_used block => (0, spmm_mark_used block m dev)

/-- Block `b` is among those a call hands out by returning `r`. -/
def returns (c : SpmmCall) (r b : Nat) : Prop :=
  match c with
  | alloc => r ≠ 0 ∧ b = r
  | alloc_contiguous count => r ≠ 0 ∧ r ≤ b ∧ b < r + count
  | _ => False

/-- The call is one of the allocators. -/
def allocates : SpmmCall → Prop
  | alloc | alloc_contiguous _ => True
  | _ => False

/-- Block `b` is covered by a free call. -/
def covers (c : SpmmCall) (b : Nat) : Prop :=
  match c with
  | free block => b = block
  | free_contiguous start_block count => start_block ≠ 0 ∧ ∃ i < count, b = (start_block + i) % 2 ^ 64
  | _ => False

/-- One call on a device in use. -/
def step (s : DevUse) (c : SpmmCall) : DevUse :=
  let r := c.run s.mem s.dev
  ⟨r.2.1, r.2.2, fun b => c.returns r.1 b ∨ s.out b ∧ ¬ c.covers b⟩

end SpmmCall

/-- A device just set up over the bit map in memory. -/
def DevUse.init (m : Store) (dev : BLOCKDEV_API) (bitmap_buf total_blocks : Nat) : DevUse :=
  let r := spmm_init m dev bitmap_buf total_blocks false
  ⟨r.1, r.2, fun _ => False⟩

/-- The invariant, for a bit map of `T` blocks at `bm` that was loaded as `m₀`. -/
structure Books (bm T : Nat) (m₀ : Store) (s : DevUse) : Prop where
  bitmap : s.dev.bitmap = bm
  total : s.dev.total_blocks = T
  count : s.dev.free_blocks = s.mem.clearBits bm T
  behind : ∀ i, T ≤ i → s.mem.bit bm i = m₀.bit bm i
  hint : s.dev.last_free_block ≤ max T 1
  marked : ∀ b, s.out b → s.mem.bit bm b = true

variable {bm T : Nat} {m₀ : Store} {s : DevUse}

theorem Books.accurate (h : Books bm T m₀ s) : Accurate s.mem s.dev := by
  unfold Accurate
  rw [h.bitmap, h.total]
  exact h.count

/-- The invariant after a change of the bits in `S` to `v`. -/
theorem Books.sets {S : Nat → Prop} {v : Bool} {m' : Store} {dev' : BLOCKDEV_API}
    {o : Nat → Prop} (h : Books bm T m₀ s) (hs : Sets S v s.mem s.dev m' dev')
    (hS : ∀ i, S i → i < T) (hhint : dev'.last_free_block ≤ max T 1)
    (hout : ∀ b, o b → m'.bit bm b = true) : Books bm T m₀ ⟨m', dev', o⟩ where
  bitmap := hs.same.bitmap.trans h.bitmap
  total := hs.same.total_blocks.trans h.total
  count := by
    have := hs.accurate h.accurate
    unfold Accurate at this
    rwa [hs.same.bitmap, hs.same.total_blocks, h.bitmap, h.total] at this
  behind i hi := by
    have := hs.outside i fun hc => by have := hS i hc; omega
    rw [h.bitmap] at this
    rw [← h.behind i hi]
    exact this
  hint := hhint
  marked := hout

/-- The invariant when nothing changes but the blocks that are out. -/
theorem Books.shrink {o : Nat → Prop} (h : Books bm T m₀ s) (hout : ∀ b, o b → s.out b) :
    Books bm T m₀ ⟨s.mem, s.dev, o⟩ :=
  ⟨h.bitmap, h.total, h.count, h.behind, h.hint, fun b hb => h.marked b (hout b hb)⟩

/-! ### What each call does -/

/-- What one call may do to a device in use: the invariant, what it hands out, and block 0. -/
structure Audited (bm T : Nat) (m₀ : Store) (s : DevUse) (c : SpmmCall) : Prop where
  books : Books bm T m₀ (c.step s)
  fresh : ∀ b, c.returns (c.run s.mem s.dev).1 b → b ≠ 0 ∧ b < T ∧ s.mem.bit bm b = false
  failed : c.allocates → (c.run s.mem s.dev).1 = 0 → (c.run s.mem s.dev).2 = (s.mem, s.dev)
  zero : s.mem.bit bm 0 = true → (c.step s).mem.bit bm 0 = true

theorem audited_alloc (h : Books bm T m₀ s) : Audited bm T m₀ s .alloc := by
  rcases spmm_alloc_spec s.mem s.dev with heq | ⟨b, h0, hT, hclear, heq⟩
  · have hno : ∀ b, ¬ SpmmCall.returns .alloc (SpmmCall.run .alloc s.mem s.dev).1 b := by
      intro b hb
      have hb0 := hb.1
      simp [SpmmCall.run, heq] at hb0
    have hstep : SpmmCall.step s .alloc = ⟨s.mem, s.dev, fun b =>
        SpmmCall.returns .alloc (SpmmCall.run .alloc s.mem s.dev).1 b ∨ s.out b ∧ ¬ False⟩ := by
      simp only [SpmmCall.step, SpmmCall.run, heq, SpmmCall.covers]
    refine ⟨?_, fun b hb => absurd hb (hno b), fun _ _ => by simp only [SpmmCall.run, heq],
      fun hz => ?_⟩
    · rw [hstep]
      refine h.shrink fun b hb => ?_
      rcases hb with hb | hb
      · exact absurd hb (hno b)
      · exact hb.1
    · rw [hstep]
      exact hz
  · have hsets := take_sets (m := s.mem) (l := b + 1) hT hclear
    rw [h.bitmap] at hclear
    rw [h.total] at hT
    have hret : ∀ x, SpmmCall.returns .alloc (SpmmCall.run .alloc s.mem s.dev).1 x → x = b := by
      intro x hx
      have := hx.2
      simpa [SpmmCall.run, heq] using this
    refine ⟨?_, fun x hx => ?_, fun _ hr => ?_, fun hz => ?_⟩
    · simp only [SpmmCall.step, SpmmCall.run, heq]
      refine h.sets hsets (by rintro i rfl; exact hT) ?_ ?_
      · show b + 1 ≤ max T 1
        omega
      · intro x hx
        rw [h.bitmap, bit_setbit]
        rcases hx with hx | hx
        · rw [if_pos hx.2]
        · rw [h.marked x hx.1]
          simp
    · rw [hret x hx]
      exact ⟨h0, hT, hclear⟩
    · simp only [SpmmCall.run, heq] at hr
      exact absurd hr h0
    · simp only [SpmmCall.step, SpmmCall.run, heq]
      rw [h.bitmap, bit_setbit, hz]
      simp

theorem audited_alloc_contiguous (h : Books bm T m₀ s) (hbm : bm ≠ 0) (count : Nat) :
    Audited bm T m₀ s (.alloc_contiguous count) := by
  have hfail : spmm_alloc_contiguous count s.mem s.dev = (0, s.mem, s.dev) →
      Audited bm T m₀ s (.alloc_contiguous count) := by
    intro heq
    have hno : ∀ b, ¬ SpmmCall.returns (.alloc_contiguous count)
        (SpmmCall.run (.alloc_contiguous count) s.mem s.dev).1 b := by
      intro b hb
      have hb0 := hb.1
      simp [SpmmCall.run, heq] at hb0
    have hmem : (SpmmCall.step s (.alloc_contiguous count)).mem = s.mem := by
      simp only [SpmmCall.step, SpmmCall.run, heq]
    refine ⟨?_, fun b hb => absurd hb (hno b), fun _ _ => by simp only [SpmmCall.run, heq],
      fun hz => by rwa [hmem]⟩
    have hbooks := h.shrink (o := fun b => SpmmCall.returns (.alloc_contiguous count)
      (SpmmCall.run (.alloc_contiguous count) s.mem s.dev).1 b ∨ s.out b ∧ ¬ False)
      fun b hb => hb.elim (fun hb => absurd hb (hno b)) And.left
    simpa only [SpmmCall.step, SpmmCall.run, heq, SpmmCall.covers] using hbooks
  by_cases hcount : count = 0
  · exact hfail (by simp only [spmm_alloc_contiguous, hcount, or_true, if_true])
  rcases spmm_alloc_contiguous_spec s.mem s.dev count (by rw [h.bitmap]; exact hbm) hcount
    h.accurate with ⟨heq, -⟩ | ⟨hrun, -, hsets⟩
  · exact hfail heq
  · have hle := hrun.le
    have hpos := hrun.pos
    have hclear := hrun.clear
    rw [h.total] at hle
    rw [h.bitmap] at hclear
    have hin := hsets.inside
    have hout := hsets.outside
    rw [h.bitmap] at hin hout
    have hhint : (spmm_alloc_contiguous count s.mem s.dev).2.2.last_free_block ≤ max T 1 := by
      have hr : (spmm_alloc_contiguous count s.mem s.dev).1 ≠ 0 := by omega
      revert hr hle
      unfold spmm_alloc_contiguous
      split_ifs
      · intro _ hr
        exact absurd rfl hr
      · split
        · intro _ hr
          exact absurd rfl hr
        · intro hle _
          dsimp only at hle ⊢
          omega
    refine ⟨h.sets hsets (fun i hi => ?_) hhint fun x hx => ?_, fun x hx => ?_, fun _ hr => ?_,
      fun hz => ?_⟩
    · have := hi.2
      omega
    · change (spmm_alloc_contiguous count s.mem s.dev).2.1.bit bm x = true
      by_cases hrx : Run (spmm_alloc_contiguous count s.mem s.dev).1 count x
      · exact hin x hrx
      · rw [hout x hrx]
        rcases hx with hx | hx
        · exact absurd hx.2 hrx
        · exact h.marked x hx.1
    · obtain ⟨-, hlo, hhi⟩ := hx
      change _ ≤ x at hlo
      change x < _ at hhi
      have := hclear (x - (spmm_alloc_contiguous count s.mem s.dev).1) (by
        simp only [SpmmCall.run] at hlo hhi
        omega)
      simp only [SpmmCall.run] at hlo hhi
      rw [show (spmm_alloc_contiguous count s.mem s.dev).1
        + (x - (spmm_alloc_contiguous count s.mem s.dev).1) = x by omega] at this
      exact ⟨by omega, by omega, this⟩
    · change (spmm_alloc_contiguous count s.mem s.dev).1 = 0 at hr
      omega
    · show (spmm_alloc_contiguous count s.mem s.dev).2.1.bit bm 0 = true
      rw [hout 0 fun hc => by have := hc.1; omega]
      exact hz

/-- Freeing one block, whichever it is. -/
theorem free_any (h : Books bm T m₀ s) (hbm : bm ≠ 0) (hT : T < 2 ^ 64) (block : Nat)
    {o : Nat → Prop} (hout : ∀ b, o b → s.out b ∧ b ≠ block) :
    Books bm T m₀ ⟨(spmm_free block s.mem s.dev).1, (spmm_free block s.mem s.dev).2, o⟩ ∧
      (s.mem.bit bm 0 = true → (spmm_free block s.mem s.dev).1.bit bm 0 = true) := by
  by_cases hin : 1 ≤ block ∧ block < T
  · have hsets := spmm_free_sets s.mem s.dev block (by rw [h.bitmap]; exact hbm) hin.1
      (by rw [h.total]; exact hin.2) (by rw [h.total]; exact hT)
    have houtside := hsets.outside
    rw [h.bitmap] at houtside
    refine ⟨h.sets hsets (by rintro i rfl; exact hin.2) ?_ fun b hb => ?_, fun hz => ?_⟩
    · have hhint := h.hint
      unfold spmm_free
      split_ifs <;> dsimp only <;> omega
    · obtain ⟨hb, hne⟩ := hout b hb
      rw [houtside b hne]
      exact h.marked b hb
    · rw [houtside 0 (by omega)]
      exact hz
  · have heq : spmm_free block s.mem s.dev = (s.mem, s.dev) := by
      unfold spmm_free
      rw [if_pos (by rw [h.total]; omega)]
    rw [heq]
    exact ⟨h.shrink fun b hb => (hout b hb).1, id⟩

theorem audited_free (h : Books bm T m₀ s) (hbm : bm ≠ 0) (hT : T < 2 ^ 64) (block : Nat) :
    Audited bm T m₀ s (.free block) := by
  obtain ⟨hbooks, hzero⟩ := free_any h hbm hT block
    (o := fun b => False ∨ s.out b ∧ ¬ b = block) fun b hb => hb.elim nofun id
  exact ⟨hbooks, nofun, nofun, hzero⟩

theorem audited_free_contiguous (h : Books bm T m₀ s) (hbm : bm ≠ 0) (hT : T < 2 ^ 64)
    (start_block count : Nat) : Audited bm T m₀ s (.free_contiguous start_block count) := by
  by_cases hstart : start_block = 0
  · have heq : spmm_free_contiguous start_block count s.mem s.dev = (s.mem, s.dev) := by
      unfold spmm_free_contiguous
      rw [if_pos (Or.inr hstart)]
    have hbooks := h.shrink (o := fun b => False ∨
      s.out b ∧ ¬ SpmmCall.covers (.free_contiguous start_block count) b)
      fun b hb => hb.elim nofun And.left
    refine ⟨?_, nofun, nofun, fun hz => ?_⟩
    · simpa only [SpmmCall.step, SpmmCall.run, heq, SpmmCall.returns] using hbooks
    · simpa only [SpmmCall.step, SpmmCall.run, heq] using hz
  · have hloop : spmm_free_contiguous start_block count s.mem s.dev =
        loop (fun i t => spmm_free ((start_block + i) % 2 ^ 64) t.1 t.2) count (s.mem, s.dev) := by
      unfold spmm_free_contiguous
      rw [if_neg (by rw [h.bitmap]; simp [hbm, hstart])]
    have hrounds := loop_induct (n := count) (s := (s.mem, s.dev))
      (f := fun i (t : Store × BLOCKDEV_API) => spmm_free ((start_block + i) % 2 ^ 64) t.1 t.2)
      (P := fun k t =>
        Books bm T m₀ ⟨t.1, t.2, fun b => s.out b ∧ ∀ i < k, b ≠ (start_block + i) % 2 ^ 64⟩ ∧
          (s.mem.bit bm 0 = true → t.1.bit bm 0 = true))
      ⟨h.shrink fun b hb => hb.1, id⟩ fun k t _ ht => by
        obtain ⟨hbooks, hzero⟩ := free_any ht.1 hbm hT ((start_block + k) % 2 ^ 64)
          (o := fun b => s.out b ∧ ∀ i < k + 1, b ≠ (start_block + i) % 2 ^ 64) fun b hb =>
            ⟨⟨hb.1, fun i hi => hb.2 i (Nat.lt_succ_of_lt hi)⟩, hb.2 k (Nat.lt_succ_self k)⟩
        exact ⟨hbooks, fun hz => hzero (ht.2 hz)⟩
    rw [← hloop] at hrounds
    refine ⟨?_, nofun, nofun, hrounds.2⟩
    have hbooks := hrounds.1
    refine ⟨hbooks.bitmap, hbooks.total, hbooks.count, hbooks.behind, hbooks.hint, fun b hb => ?_⟩
    rcases hb with hb | ⟨hb, hcov⟩
    · cases hb
    · exact hbooks.marked b ⟨hb, fun i hi heq => hcov ⟨hstart, i, hi, heq⟩⟩

theorem audited_mark_used (h : Books bm T m₀ s) (hbm : bm ≠ 0) (block : Nat) :
    Audited bm T m₀ s (.mark_used block) := by
  have hsets := spmm_mark_used_sets (m := s.mem) (b := block) (by rw [h.bitmap]; exact hbm)
  have hin := hsets.inside
  have hout := hsets.outside
  rw [h.bitmap, h.total] at hin hout
  have hmono : ∀ b, s.mem.bit bm b = true → (spmm_mark_used block s.mem s.dev).1.bit bm b = true := by
    intro b hb
    by_cases hc : b = block ∧ block < T
    · exact hin b hc
    · rw [hout b hc]
      exact hb
  refine ⟨h.sets hsets (fun i hi => ?_) ?_ fun b hb => ?_, nofun, nofun, hmono 0⟩
  · rw [h.total] at hi
    omega
  · change (spmm_mark_used block s.mem s.dev).2.last_free_block ≤ max T 1
    unfold spmm_mark_used
    split_ifs <;> exact h.hint
  · rcases hb with hb | hb
    · cases hb
    · exact hmono b (h.marked b hb.1)

theorem Books.kept (h : Books bm T m₀ s) (hbm : bm ≠ 0) (hT : T < 2 ^ 64) (c : SpmmCall) :
    Audited bm T m₀ s c := by
  cases c with
  | alloc => exact audited_alloc h
  | alloc_contiguous count => exact audited_alloc_contiguous h hbm count
  | free block => exact audited_free h hbm hT block
  | free_contiguous start_block count => exact audited_free_contiguous h hbm hT start_block count
  | mark_used block => exact audited_mark_used h hbm block

/-! ### Runs -/

theorem books_init (m : Store) (dev : BLOCKDEV_API) (hbm : bm ≠ 0) :
    Books bm T m (.init m dev bm T) := by
  unfold DevUse.init
  rw [spmm_init_loaded hbm]
  exact ⟨rfl, rfl, rfl, fun _ _ => rfl, Nat.le_max_right _ _, nofun⟩

theorem Books.calls (hbm : bm ≠ 0) (hT : T < 2 ^ 64) : ∀ (calls : List SpmmCall) {s : DevUse},
    Books bm T m₀ s → Books bm T m₀ (calls.foldl SpmmCall.step s) := by
  intro calls
  induction calls with
  | nil => intro s h; exact h
  | cons c calls ih => intro s h; exact ih (h.kept hbm hT c).books

/-- **Accounting.**  After any calls on a device set up over a loaded bit map, the counter is
the number of clear bits, the bits behind the last block are as loaded and the hint is in
range; the next call hands out no block that is out, neither hands out nor frees block 0,
and changes nothing if it is an allocation that returns 0. -/
theorem sector_accounting (m : Store) (dev : BLOCKDEV_API) (bitmap_buf T : Nat)
    (hbuf : bitmap_buf ≠ 0) (h64 : T < 2 ^ 64) (calls : List SpmmCall)
    (c : SpmmCall) :
    let s := calls.foldl SpmmCall.step (.init m dev bitmap_buf T)
    s.dev.free_blocks = s.mem.clearBits bitmap_buf T ∧
    (∀ i, T ≤ i → s.mem.bit bitmap_buf i = m.bit bitmap_buf i) ∧
    s.dev.last_free_block ≤ max T 1 ∧
    (∀ b, c.returns (c.run s.mem s.dev).1 b → b ≠ 0 ∧ ¬ s.out b) ∧
    (c.allocates → (c.run s.mem s.dev).1 = 0 → (c.run s.mem s.dev).2 = (s.mem, s.dev)) ∧
    (s.mem.bit bitmap_buf 0 = true → (c.run s.mem s.dev).2.1.bit bitmap_buf 0 = true) := by
  intro s
  have h : Books bitmap_buf T m s := Books.calls hbuf h64 calls (books_init m dev hbuf)
  have hk := h.kept hbuf h64 c
  refine ⟨h.count, h.behind, h.hint, fun b hb => ?_, hk.failed, hk.zero⟩
  obtain ⟨h0, -, hclear⟩ := hk.fresh b hb
  refine ⟨h0, fun hout => ?_⟩
  rw [h.marked b hout] at hclear
  cases hclear

/-- A hundred blocks over an empty bit map, one of them allocated. -/
theorem sector_accounting_hundred :
    let s := [SpmmCall.alloc].foldl SpmmCall.step
      (.init (fun _ => 0) ⟨200, fun _ => 0, fun _ => none, 0, 0, 0, 0, 0⟩ 4096 100)
    s.dev.free_blocks = s.mem.clearBits 4096 100 ∧
    (∀ i, 100 ≤ i → s.mem.bit 4096 i = Store.bit (fun _ => 0) 4096 i) ∧
    s.dev.last_free_block ≤ max 100 1 ∧
    (∀ b, SpmmCall.returns .alloc (SpmmCall.run .alloc s.mem s.dev).1 b → b ≠ 0 ∧ ¬ s.out b) ∧
    (SpmmCall.allocates .alloc → (SpmmCall.run .alloc s.mem s.dev).1 = 0 →
      (SpmmCall.run .alloc s.mem s.dev).2 = (s.mem, s.dev)) ∧
    (s.mem.bit 4096 0 = true → (SpmmCall.run .alloc s.mem s.dev).2.1.bit 4096 0 = true) :=
  sector_accounting (fun _ => 0) _ 4096 100 (by decide) (by decide) [.alloc] .alloc

end Eke
