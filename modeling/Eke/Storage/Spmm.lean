/-
The sector allocator.

`storage/spmm.cpp` keeps, for one block device, a bit map in memory with one bit per
block, a count of the free blocks and a hint.  The model follows its functions with
the memory and the device passed in and out; a null device never reaches them from
the file system, so the default to the current disk is left to the callers.

What the rest of the development uses is at the end of each section: marking sets
one bit, a contiguous allocation takes the first run that is long enough, and
freeing a run that was in use gives back exactly that run, the counter following
the number of clear bits each time.
-/
import Eke.Storage.BlockDev
import Eke.Lib.Loop

namespace Eke

def setbit (m : Store) (bm block : Nat) : Store :=
  m.setWord (bm + 8 * (block / 64)) (m.word (bm + 8 * (block / 64)) ||| 1#64 <<< (block % 64))

def clearbit (m : Store) (bm block : Nat) : Store :=
  m.setWord (bm + 8 * (block / 64)) (m.word (bm + 8 * (block / 64)) &&& ~~~(1#64 <<< (block % 64)))

def getbit (m : Store) (bm block : Nat) : Bool :=
  (m.word (bm + 8 * (block / 64))).getLsbD (block % 64)

theorem getbit_eq (m : Store) (bm block : Nat) : getbit m bm block = m.bit bm block :=
  (Store.bit_word m bm block).symm

theorem bit_setbit (m : Store) (bm i j : Nat) :
    (setbit m bm i).bit bm j = if j = i then true else m.bit bm j := by
  refine Store.bit_setWord fun k hk => ?_
  simp only [BitVec.getLsbD_or, BitVec.getLsbD_shiftLeft]
  by_cases hki : k = i % 64
  · simp [hki]
    omega
  · rw [if_neg hki]
    by_cases hlt : k < i % 64
    · simp [hlt]
    · have : k - i % 64 ≠ 0 := by omega
      simp [this]

theorem bit_clearbit (m : Store) (bm i j : Nat) :
    (clearbit m bm i).bit bm j = if j = i then false else m.bit bm j := by
  refine Store.bit_setWord fun k hk => ?_
  simp only [BitVec.getLsbD_and, BitVec.getLsbD_not, BitVec.getLsbD_shiftLeft]
  by_cases hki : k = i % 64
  · simp [hki]
  · rw [if_neg hki]
    by_cases hlt : k < i % 64
    · simp [hlt, hk]
    · have : k - i % 64 ≠ 0 := by omega
      simp [this, hk]

theorem setbit_out {m : Store} {bm i x : Nat} (h : x < bm + 8 * (i / 64) ∨ bm + 8 * (i / 64) + 8 ≤ x) :
    (setbit m bm i) x = m x := Store.setWord_out h

theorem clearbit_out {m : Store} {bm i x : Nat}
    (h : x < bm + 8 * (i / 64) ∨ bm + 8 * (i / 64) + 8 ≤ x) :
    (clearbit m bm i) x = m x := Store.setWord_out h

/-! ### The functions of `spmm.cpp` -/

/-- `spmm_init`. -/
def spmm_init (m : Store) (dev : BLOCKDEV_API) (bitmap_buf total_blocks : Nat) (all_free : Bool) :
    Store × BLOCKDEV_API :=
  if bitmap_buf = 0 then (m, dev)
  else
    let dev := { dev with bitmap := bitmap_buf, total_blocks := total_blocks, last_free_block := 1 }
    let total_words := (total_blocks + 63) % 2 ^ 64 / 64
    if all_free then
      let m := loop (fun i m => m.setWord (bitmap_buf + 8 * i) 0) total_words m
      (setbit m bitmap_buf 0, { dev with free_blocks := (total_blocks + 2 ^ 64 - 1) % 2 ^ 64 })
    else
      let free_cnt := loop (fun b cnt => if getbit m bitmap_buf b then cnt else cnt + 1) total_blocks 0
      (m, { dev with free_blocks := free_cnt })

/--
The loop over the bits of word `w` in `spmm_alloc`, with `n` bits left from `bit` on:
block 0 is passed over, and the search ends at the last block.
-/
def bit_scan (m : Store) (bm total_blocks w : Nat) : Nat → Nat → Option Nat
  | 0, _ => none
  | n + 1, bit =>
    if w * 64 + bit = 0 then bit_scan m bm total_blocks w n (bit + 1)
    else if total_blocks ≤ w * 64 + bit then none
    else if getbit m bm (w * 64 + bit) = false then some (w * 64 + bit)
    else bit_scan m bm total_blocks w n (bit + 1)

/-- The loop over `n` words from `w` on; words without a clear bit are skipped. -/
def word_scan (m : Store) (bm total_blocks : Nat) : Nat → Nat → Option Nat
  | 0, _ => none
  | n + 1, w =>
    if m.word (bm + 8 * w) = BitVec.allOnes 64 then word_scan m bm total_blocks n (w + 1)
    else
      match bit_scan m bm total_blocks w 64 0 with
      | some b => some b
      | none => word_scan m bm total_blocks n (w + 1)

/-- `spmm_alloc`: a block, or 0; from the hint's word to the end, then from the start. -/
def spmm_alloc (m : Store) (dev : BLOCKDEV_API) : Nat × Store × BLOCKDEV_API :=
  if dev.bitmap = 0 ∨ dev.free_blocks = 0 then (0, m, dev)
  else
    let total_words := (dev.total_blocks + 63) % 2 ^ 64 / 64
    let start_word := dev.last_free_block / 64
    let take (b : Nat) : Nat × Store × BLOCKDEV_API :=
      (b, setbit m dev.bitmap b,
        { dev with free_blocks := dev.free_blocks - 1, last_free_block := b + 1 })
    match word_scan m dev.bitmap dev.total_blocks (total_words - start_word) start_word with
    | some b => take b
    | none =>
      match word_scan m dev.bitmap dev.total_blocks start_word 0 with
      | some b => take b
      | none => (0, m, dev)

/--
The search loop of `spmm_alloc_contiguous`, with `n` blocks left to look at from `b`
on: `current_run` clear blocks were seen in a row, the first of them `run_start`.
-/
def contiguous_scan (m : Store) (bm count : Nat) : Nat → Nat → Nat → Nat → Option Nat
  | 0, _, _, _ => none
  | n + 1, b, run_start, current_run =>
    if getbit m bm b = false then
      let run_start := if current_run = 0 then b else run_start
      if current_run + 1 = count then some run_start
      else contiguous_scan m bm count n (b + 1) run_start (current_run + 1)
    else contiguous_scan m bm count n (b + 1) run_start 0

/-- `spmm_alloc_contiguous`: the first block of the run, or 0. -/
def spmm_alloc_contiguous (count : Nat) (m : Store) (dev : BLOCKDEV_API) :
    Nat × Store × BLOCKDEV_API :=
  if dev.bitmap = 0 ∨ dev.free_blocks < count ∨ count = 0 then (0, m, dev)
  else
    match contiguous_scan m dev.bitmap count (dev.total_blocks - 1) 1 1 0 with
    | none => (0, m, dev)
    | some run_start =>
      (run_start, loop (fun k m => setbit m dev.bitmap (run_start + k)) count m,
        { dev with free_blocks := dev.free_blocks - count, last_free_block := run_start + count })

/-- `spmm_free`. -/
def spmm_free (block : Nat) (m : Store) (dev : BLOCKDEV_API) : Store × BLOCKDEV_API :=
  if dev.bitmap = 0 ∨ block = 0 ∨ dev.total_blocks ≤ block then (m, dev)
  else if getbit m dev.bitmap block then
    (clearbit m dev.bitmap block,
      { dev with
        free_blocks := (dev.free_blocks + 1) % 2 ^ 64
        last_free_block := if block < dev.last_free_block then block else dev.last_free_block })
  else (m, dev)

/-- `spmm_free_contiguous`. -/
def spmm_free_contiguous (start_block count : Nat) (m : Store) (dev : BLOCKDEV_API) :
    Store × BLOCKDEV_API :=
  if dev.bitmap = 0 ∨ start_block = 0 then (m, dev)
  else loop (fun i s => spmm_free ((start_block + i) % 2 ^ 64) s.1 s.2) count (m, dev)

/-- `spmm_is_free`. -/
def spmm_is_free (block : Nat) (m : Store) (dev : BLOCKDEV_API) : Bool :=
  if dev.bitmap = 0 ∨ dev.total_blocks ≤ block then false else !getbit m dev.bitmap block

/-- `spmm_mark_used`. -/
def spmm_mark_used (block : Nat) (m : Store) (dev : BLOCKDEV_API) : Store × BLOCKDEV_API :=
  if dev.bitmap = 0 ∨ dev.total_blocks ≤ block then (m, dev)
  else if getbit m dev.bitmap block = false then
    (setbit m dev.bitmap block,
      if 0 < dev.free_blocks then { dev with free_blocks := dev.free_blocks - 1 } else dev)
  else (m, dev)

/-! ### What the device and the memory still have in common

All of the functions leave the medium, the bit map's address and the block count of
the device alone, and write no byte of memory outside the bit map's words.
-/

/-- The counter says how many of the device's blocks are free. -/
def Accurate (m : Store) (dev : BLOCKDEV_API) : Prop :=
  dev.free_blocks = m.clearBits dev.bitmap dev.total_blocks

/-- The parts of a device the allocator never writes. -/
structure SameDev (dev dev' : BLOCKDEV_API) : Prop where
  total_sectors : dev'.total_sectors = dev.total_sectors
  sectors : dev'.sectors = dev.sectors
  io : dev'.io = dev.io
  ops : dev'.ops = dev.ops
  bitmap : dev'.bitmap = dev.bitmap
  total_blocks : dev'.total_blocks = dev.total_blocks

theorem SameDev.refl (dev : BLOCKDEV_API) : SameDev dev dev := ⟨rfl, rfl, rfl, rfl, rfl, rfl⟩

theorem SameDev.trans {a b c : BLOCKDEV_API} (h : SameDev a b) (h' : SameDev b c) : SameDev a c :=
  ⟨h'.1.trans h.1, h'.2.trans h.2, h'.3.trans h.3, h'.4.trans h.4, h'.5.trans h.5, h'.6.trans h.6⟩

/-- The words of the bit map of `T` blocks at `bm` are the only memory that changed. -/
def OnlyBits (bm T : Nat) (m m' : Store) : Prop :=
  ∀ x, x < bm ∨ bm + 8 * ((T + 63) / 64) ≤ x → m' x = m x

theorem OnlyBits.refl (bm T : Nat) (m : Store) : OnlyBits bm T m m := fun _ _ => rfl

theorem OnlyBits.trans {bm T : Nat} {a b c : Store} (h : OnlyBits bm T a b) (h' : OnlyBits bm T b c) :
    OnlyBits bm T a c := fun x hx => (h' x hx).trans (h x hx)

theorem onlyBits_setbit {bm T i : Nat} {m : Store} (hi : i < T) : OnlyBits bm T m (setbit m bm i) :=
  fun _ hx => setbit_out (by omega)

theorem onlyBits_clearbit {bm T i : Nat} {m : Store} (hi : i < T) :
    OnlyBits bm T m (clearbit m bm i) :=
  fun _ hx => clearbit_out (by omega)

/-- A memory in which only the words of a bit map may differ, and no bit does, is the same. -/
theorem mem_eq_of_bits {bm T : Nat} {m m' : Store} (honly : OnlyBits bm T m m')
    (hbits : ∀ b, m'.bit bm b = m.bit bm b) : m' = m := by
  funext x
  by_cases hx : x < bm
  · exact honly x (Or.inl hx)
  · refine BitVec.eq_of_getLsbD_eq fun k hk => ?_
    have := hbits (8 * (x - bm) + k)
    unfold Store.bit at this
    rwa [show bm + (8 * (x - bm) + k) / 8 = x by omega,
      show (8 * (x - bm) + k) % 8 = k by omega] at this

/-! ### Counting at `spmm_init` -/

theorem free_cnt_eq (m : Store) (bm : Nat) : ∀ T : Nat,
    loop (fun b cnt => if getbit m bm b then cnt else cnt + 1) T 0 = m.clearBits bm T := by
  intro T
  induction T with
  | zero => rfl
  | succ T ih =>
      rw [loop, ih, Store.clearBits_succ, getbit_eq]
      cases m.bit bm T <;> simp

/-- A loaded bit map is taken as it is, and counted. -/
theorem spmm_init_loaded {m : Store} {dev : BLOCKDEV_API} {bm T : Nat} (hbm : bm ≠ 0) :
    spmm_init m dev bm T false =
      (m, { dev with bitmap := bm, total_blocks := T, last_free_block := 1,
                     free_blocks := m.clearBits bm T }) := by
  simp only [spmm_init, if_neg hbm, Bool.false_eq_true, if_false, free_cnt_eq]

/-! ### Marking a block used -/

/-- What an operation on the bit map does: the bits change to `v` on `S` and nowhere else. -/
structure Sets (S : Nat → Prop) (v : Bool) (m : Store) (dev : BLOCKDEV_API) (m' : Store)
    (dev' : BLOCKDEV_API) : Prop where
  same : SameDev dev dev'
  only : OnlyBits dev.bitmap dev.total_blocks m m'
  inside : ∀ i, S i → m'.bit dev.bitmap i = v
  outside : ∀ i, ¬ S i → m'.bit dev.bitmap i = m.bit dev.bitmap i
  accurate : Accurate m dev → Accurate m' dev'

theorem spmm_mark_used_sets {m : Store} {dev : BLOCKDEV_API} {b : Nat} (hbm : dev.bitmap ≠ 0) :
    Sets (fun i => i = b ∧ b < dev.total_blocks) true m dev (spmm_mark_used b m dev).1
      (spmm_mark_used b m dev).2 := by
  unfold spmm_mark_used
  by_cases hT : dev.total_blocks ≤ b
  · rw [if_pos (Or.inr hT)]
    exact ⟨SameDev.refl dev, OnlyBits.refl _ _ m, fun i hi => by omega, fun _ _ => rfl, id⟩
  rw [if_neg (by simp [hbm, hT])]
  by_cases hbit : getbit m dev.bitmap b = false
  · rw [if_pos hbit]
    have hb : m.bit dev.bitmap b = false := by rw [← getbit_eq, hbit]
    refine ⟨?_, onlyBits_setbit (by omega), ?_, ?_, ?_⟩
    · split <;> exact ⟨rfl, rfl, rfl, rfl, rfl, rfl⟩
    · rintro i ⟨rfl, -⟩
      simp [bit_setbit]
    · intro i hi
      rw [bit_setbit, if_neg fun h => hi ⟨h, by omega⟩]
    · intro hacc
      have hcnt := Store.clearBits_set m (setbit m dev.bitmap b) (n := dev.total_blocks)
        (by omega) hb (bit_setbit m dev.bitmap b)
      unfold Accurate at hacc ⊢
      rw [if_pos (by omega)]
      show dev.free_blocks - 1 = (setbit m dev.bitmap b).clearBits dev.bitmap dev.total_blocks
      omega
  · rw [if_neg hbit]
    refine ⟨SameDev.refl dev, OnlyBits.refl _ _ m, ?_, fun _ _ => rfl, id⟩
    rintro i ⟨rfl, -⟩
    rw [← getbit_eq]
    simpa using hbit

/-- Reserving the first `n` blocks one by one. -/
theorem mark_loop_sets (m : Store) (dev : BLOCKDEV_API) (hbm : dev.bitmap ≠ 0) (n : Nat) :
    let s := loop (fun b (s : Store × BLOCKDEV_API) => spmm_mark_used b s.1 s.2) n (m, dev)
    Sets (fun i => i < n ∧ i < dev.total_blocks) true m dev s.1 s.2 := by
  refine loop_induct (P := fun k (s : Store × BLOCKDEV_API) =>
    Sets (fun i => i < k ∧ i < dev.total_blocks) true m dev s.1 s.2) ?_ ?_
  · exact ⟨SameDev.refl dev, OnlyBits.refl _ _ m, fun i hi => by omega, fun _ _ => rfl, id⟩
  · rintro k ⟨m₁, dev₁⟩ - h
    have hs := spmm_mark_used_sets (m := m₁) (b := k) (by rw [h.same.bitmap]; exact hbm)
    have hbe := h.same.bitmap
    have hTe := h.same.total_blocks
    dsimp only at hbe hTe hs h ⊢
    rw [hTe] at hs
    have hin := hs.inside
    have hout := hs.outside
    have honly := hs.only
    rw [hbe] at hin hout honly
    rw [hTe] at honly
    refine ⟨h.same.trans hs.same, h.only.trans honly, ?_, ?_, fun ha => hs.accurate (h.accurate ha)⟩
    · intro i hi
      by_cases hik : i = k
      · exact hin i ⟨hik, by omega⟩
      · rw [hout i fun hc => hik hc.1]
        exact h.inside i ⟨by omega, hi.2⟩
    · intro i hi
      rw [hout i (by omega), h.outside i (by omega)]

/-! ### Allocating one block -/

theorem bit_scan_spec {m : Store} {bm T w b : Nat} : ∀ {n bit : Nat},
    bit_scan m bm T w n bit = some b → b ≠ 0 ∧ b < T ∧ m.bit bm b = false := by
  intro n
  induction n with
  | zero => intro bit h; cases h
  | succ n ih =>
      intro bit h
      rw [bit_scan] at h
      split_ifs at h with h0 hT hbit
      · exact ih h
      · obtain rfl := Option.some.inj h
        exact ⟨h0, by omega, by rwa [← getbit_eq]⟩
      · exact ih h

theorem word_scan_spec {m : Store} {bm T b : Nat} : ∀ {n w : Nat},
    word_scan m bm T n w = some b → b ≠ 0 ∧ b < T ∧ m.bit bm b = false := by
  intro n
  induction n with
  | zero => intro w h; cases h
  | succ n ih =>
      intro w h
      rw [word_scan] at h
      split_ifs at h with hfull
      · exact ih h
      · cases hb : bit_scan m bm T w 64 0 with
        | some b' =>
            rw [hb] at h
            obtain rfl := Option.some.inj h
            exact bit_scan_spec hb
        | none =>
            rw [hb] at h
            exact ih h

/-- Setting one clear bit and counting it. -/
theorem take_sets {m : Store} {dev : BLOCKDEV_API} {b l : Nat} (hb : b < dev.total_blocks)
    (hclear : m.bit dev.bitmap b = false) :
    Sets (fun i => i = b) true m dev (setbit m dev.bitmap b)
      { dev with free_blocks := dev.free_blocks - 1, last_free_block := l } := by
  refine ⟨⟨rfl, rfl, rfl, rfl, rfl, rfl⟩, onlyBits_setbit hb, ?_, fun i hi => ?_, fun hacc => ?_⟩
  · rintro i rfl
    simp [bit_setbit]
  · rw [bit_setbit, if_neg hi]
  · have hcnt := Store.clearBits_set m (setbit m dev.bitmap b) (n := dev.total_blocks) hb hclear
      (bit_setbit m dev.bitmap b)
    unfold Accurate at hacc ⊢
    show dev.free_blocks - 1 = (setbit m dev.bitmap b).clearBits dev.bitmap dev.total_blocks
    omega

/-- An allocation of one block fails and changes nothing, or takes a clear block after block 0. -/
theorem spmm_alloc_spec (m : Store) (dev : BLOCKDEV_API) :
    spmm_alloc m dev = (0, m, dev) ∨
      ∃ b, b ≠ 0 ∧ b < dev.total_blocks ∧ m.bit dev.bitmap b = false ∧
        spmm_alloc m dev = (b, setbit m dev.bitmap b,
          { dev with free_blocks := dev.free_blocks - 1, last_free_block := b + 1 }) := by
  unfold spmm_alloc
  split
  · exact Or.inl rfl
  · dsimp only
    split
    · rename_i b hb
      obtain ⟨h0, hT, hclear⟩ := word_scan_spec hb
      exact Or.inr ⟨b, h0, hT, hclear, rfl⟩
    · split
      · rename_i b hb
        obtain ⟨h0, hT, hclear⟩ := word_scan_spec hb
        exact Or.inr ⟨b, h0, hT, hclear, rfl⟩
      · exact Or.inl rfl

/-! ### Contiguous allocation -/

/-- The blocks `s`, …, `s + count - 1` are clear blocks of the device after block 0. -/
structure ClearRun (m : Store) (bm T count s : Nat) : Prop where
  pos : 1 ≤ s
  le : s + count ≤ T
  clear : ∀ k, k < count → m.bit bm (s + k) = false

/--
The search loop, between block 1 and `b`: the current run is the `run` blocks before
`b`, and every earlier start is already ruled out by a set bit within `count` of it.
-/
theorem contiguous_scan_spec (m : Store) (bm count : Nat) : ∀ (n b run_start run : Nat),
    1 ≤ b - run → run ≤ b → run < count → (run ≠ 0 → run_start + run = b) →
    (∀ k, b - run ≤ k → k < b → m.bit bm k = false) →
    (∀ s, 1 ≤ s → s < b - run → ∃ k, k < count ∧ m.bit bm (s + k) = true) →
    match contiguous_scan m bm count n b run_start run with
    | none => ∀ s, ¬ ClearRun m bm (b + n) count s
    | some r => ClearRun m bm (b + n) count r ∧ ∀ s, s < r → ¬ ClearRun m bm (b + n) count s := by
  intro n
  induction n with
  | zero =>
      intro b run_start run hpos hle hlt _ _ hout s hs
      by_cases hsb : s < b - run
      · obtain ⟨k, hk, hbit⟩ := hout s hs.pos hsb
        rw [hs.clear k hk] at hbit
        cases hbit
      · have := hs.le
        omega
  | succ n ih =>
      intro b run_start run hpos hle hlt hrs hclear hout
      rw [contiguous_scan, getbit_eq]
      by_cases hbit : m.bit bm b = false
      · rw [if_pos hbit]
        have hstart : (if run = 0 then b else run_start) = b - run := by
          split
          · omega
          · have := hrs (by assumption)
            omega
        simp only [hstart]
        have hclear' : ∀ k, b - run ≤ k → k < b + 1 → m.bit bm k = false := by
          intro k hk hkb
          rcases Nat.lt_succ_iff_lt_or_eq.mp hkb with h | rfl
          · exact hclear k hk h
          · exact hbit
        by_cases hcount : run + 1 = count
        · rw [if_pos hcount]
          refine ⟨⟨hpos, by omega, fun k hk => hclear' _ (by omega) (by omega)⟩, ?_⟩
          intro s hs hrun
          obtain ⟨k, hk, hb⟩ := hout s hrun.pos hs
          rw [hrun.clear k hk] at hb
          cases hb
        · rw [if_neg hcount]
          have := ih (b + 1) (b - run) (run + 1) (by omega) (by omega) (by omega) (by omega)
            (fun k hk hkb => hclear' k (by omega) hkb)
            (fun s hs hsb => hout s hs (by omega))
          rwa [show b + 1 + n = b + (n + 1) by omega] at this
      · rw [if_neg hbit]
        have := ih (b + 1) run_start 0 (by omega) (by omega) (by omega) (by omega)
          (fun k hk hkb => by omega) (fun s hs hsb => by
            by_cases hsr : s < b - run
            · exact hout s hs hsr
            · refine ⟨b - s, by omega, ?_⟩
              rw [show s + (b - s) = b by omega]
              simpa using hbit)
        rwa [show b + 1 + n = b + (n + 1) by omega] at this

/-- The search over a whole device finds the first run there is. -/
theorem contiguous_first_fit (m : Store) (bm T : Nat) {count : Nat} (hcount : count ≠ 0) :
    match contiguous_scan m bm count (T - 1) 1 1 0 with
    | none => ∀ s, ¬ ClearRun m bm T count s
    | some r => ClearRun m bm T count r ∧ ∀ s, s < r → ¬ ClearRun m bm T count s := by
  have hspec := contiguous_scan_spec m bm count (T - 1) 1 1 0 (by omega)
    (by omega) (by omega) (by omega) (fun k hk hkb => by omega) (fun s hs hsb => by omega)
  have hT : ∀ s, ClearRun m bm (1 + (T - 1)) count s ↔ ClearRun m bm T count s := by
    intro s
    constructor
    · intro h
      have := h.le
      have := h.pos
      exact ⟨h.pos, by omega, h.clear⟩
    · intro h
      have := h.le
      have := h.pos
      exact ⟨h.pos, by omega, h.clear⟩
  cases hscan : contiguous_scan m bm count (T - 1) 1 1 0 with
  | none =>
      rw [hscan] at hspec
      exact fun s hs => hspec s ((hT s).mpr hs)
  | some r =>
      rw [hscan] at hspec
      exact ⟨(hT r).mp hspec.1, fun s hs hc => hspec.2 s hs ((hT s).mpr hc)⟩

/-- Setting a run of clear bits, one at a time. -/
theorem set_loop {m : Store} {bm T s : Nat} : ∀ {count : Nat}, s + count ≤ T →
    (∀ k, k < count → m.bit bm (s + k) = false) →
    let m' := loop (fun k m => setbit m bm (s + k)) count m
    OnlyBits bm T m m' ∧
      (∀ i, m'.bit bm i = if s ≤ i ∧ i < s + count then true else m.bit bm i) ∧
      m'.clearBits bm T + count = m.clearBits bm T := by
  intro count
  induction count with
  | zero =>
      intro _ _
      refine ⟨OnlyBits.refl _ _ m, fun i => ?_, rfl⟩
      rw [if_neg (by omega)]
      rfl
  | succ count ih =>
      intro hle hclear
      obtain ⟨honly, hbits, hcnt⟩ := ih (by omega) fun k hk => hclear k (by omega)
      have hlast : (loop (fun k m => setbit m bm (s + k)) count m).bit bm (s + count) = false := by
        rw [hbits, if_neg (by omega), hclear count (by omega)]
      refine ⟨honly.trans (onlyBits_setbit (by omega)), fun i => ?_, ?_⟩
      · rw [loop, bit_setbit, hbits]
        by_cases hi : i = s + count
        · rw [if_pos hi, if_pos (by omega)]
        · rw [if_neg hi]
          by_cases hin : s ≤ i ∧ i < s + count
          · rw [if_pos hin, if_pos (by omega)]
          · rw [if_neg hin, if_neg (by omega)]
      · have := Store.clearBits_set _ _ (n := T) (by omega) hlast
          (bit_setbit (loop (fun k m => setbit m bm (s + k)) count m) bm (s + count))
        rw [loop]
        omega

/-- The run of blocks `[s, s + count)`. -/
def Run (s count : Nat) : Nat → Prop := fun i => s ≤ i ∧ i < s + count

/--
**First fit.**  A contiguous allocation either finds no run and changes nothing, or
takes the first run of clear blocks after block 0, sets exactly its bits and keeps
the counter accurate.
-/
theorem spmm_alloc_contiguous_spec (m : Store) (dev : BLOCKDEV_API) (count : Nat)
    (hbm : dev.bitmap ≠ 0) (hcount : count ≠ 0) (hacc : Accurate m dev) :
    let r := spmm_alloc_contiguous count m dev
    (r = (0, m, dev) ∧ ∀ s, ¬ ClearRun m dev.bitmap dev.total_blocks count s) ∨
      (ClearRun m dev.bitmap dev.total_blocks count r.1 ∧
        (∀ s, s < r.1 → ¬ ClearRun m dev.bitmap dev.total_blocks count s) ∧
        Sets (Run r.1 count) true m dev r.2.1 r.2.2) := by
  unfold spmm_alloc_contiguous
  by_cases hfree : dev.free_blocks < count
  · rw [if_pos (Or.inr (Or.inl hfree))]
    refine Or.inl ⟨rfl, fun s hs => ?_⟩
    obtain ⟨-, -, hcnt⟩ := set_loop hs.le hs.clear
    rw [Accurate] at hacc
    omega
  rw [if_neg (by simp [hbm, hfree, hcount])]
  have hfound := contiguous_first_fit m dev.bitmap dev.total_blocks hcount
  cases hscan : contiguous_scan m dev.bitmap count (dev.total_blocks - 1) 1 1 0 with
  | none =>
      rw [hscan] at hfound
      exact Or.inl ⟨rfl, hfound⟩
  | some r =>
      rw [hscan] at hfound
      obtain ⟨hrun, hleast⟩ := hfound
      obtain ⟨honly, hbits, hcnt⟩ := set_loop hrun.le hrun.clear
      refine Or.inr ⟨hrun, hleast, ?_⟩
      refine ⟨⟨rfl, rfl, rfl, rfl, rfl, rfl⟩, honly, fun i hi => ?_, fun i hi => ?_, fun _ => ?_⟩
      · exact (hbits i).trans (if_pos hi)
      · exact (hbits i).trans (if_neg hi)
      · unfold Accurate at hacc ⊢
        show dev.free_blocks - count =
          (loop (fun k m => setbit m dev.bitmap (r + k)) count m).clearBits dev.bitmap
            dev.total_blocks
        omega

/-- A run that is handed out was clear, whatever the counter says. -/
theorem spmm_alloc_contiguous_run {m : Store} {dev : BLOCKDEV_API} {count : Nat}
    (h : (spmm_alloc_contiguous count m dev).1 ≠ 0) :
    ClearRun m dev.bitmap dev.total_blocks count (spmm_alloc_contiguous count m dev).1 := by
  unfold spmm_alloc_contiguous at h ⊢
  by_cases hnone : dev.bitmap = 0 ∨ dev.free_blocks < count ∨ count = 0
  · rw [if_pos hnone] at h
    exact absurd rfl h
  rw [if_neg hnone] at h ⊢
  have hcount : count ≠ 0 := by omega
  have hfound := contiguous_first_fit m dev.bitmap dev.total_blocks hcount
  cases hscan : contiguous_scan m dev.bitmap count (dev.total_blocks - 1) 1 1 0 with
  | none =>
      rw [hscan] at h
      exact absurd rfl h
  | some r =>
      rw [hscan] at hfound
      exact hfound.1

theorem spmm_alloc_contiguous_same (count : Nat) (m : Store) (dev : BLOCKDEV_API) :
    SameDev dev (spmm_alloc_contiguous count m dev).2.2 := by
  unfold spmm_alloc_contiguous
  split
  · exact SameDev.refl dev
  · split
    · exact SameDev.refl dev
    · exact ⟨rfl, rfl, rfl, rfl, rfl, rfl⟩

/-! ### Freeing -/

theorem spmm_free_sets (m : Store) (dev : BLOCKDEV_API) (b : Nat) (hbm : dev.bitmap ≠ 0)
    (hb : 1 ≤ b) (hT : b < dev.total_blocks) (h64 : dev.total_blocks < 2 ^ 64) :
    Sets (fun i => i = b) false m dev (spmm_free b m dev).1 (spmm_free b m dev).2 := by
  unfold spmm_free
  rw [if_neg (by omega), getbit_eq]
  by_cases hbit : m.bit dev.bitmap b = true
  · rw [if_pos hbit]
    refine ⟨⟨rfl, rfl, rfl, rfl, rfl, rfl⟩, onlyBits_clearbit hT, ?_, ?_, ?_⟩
    · rintro i rfl
      simp [bit_clearbit]
    · intro i hi
      rw [bit_clearbit, if_neg hi]
    · intro hacc
      have hcnt := Store.clearBits_clear hT hbit (bit_clearbit m dev.bitmap b)
      have hle := Store.clearBits_le (clearbit m dev.bitmap b) dev.bitmap dev.total_blocks
      unfold Accurate at hacc ⊢
      show (dev.free_blocks + 1) % 2 ^ 64
        = (clearbit m dev.bitmap b).clearBits dev.bitmap dev.total_blocks
      rw [Nat.mod_eq_of_lt (by omega)]
      omega
  · rw [if_neg hbit]
    refine ⟨SameDev.refl dev, OnlyBits.refl _ _ m, ?_, fun _ _ => rfl, id⟩
    rintro i rfl
    simpa using hbit

/-- Freeing a run inside the device clears exactly that run. -/
theorem spmm_free_contiguous_sets (m : Store) (dev : BLOCKDEV_API) (s count : Nat)
    (hbm : dev.bitmap ≠ 0) (hs : 1 ≤ s) (hT : s + count ≤ dev.total_blocks)
    (h64 : dev.total_blocks < 2 ^ 64) :
    Sets (Run s count) false m dev (spmm_free_contiguous s count m dev).1
      (spmm_free_contiguous s count m dev).2 := by
  unfold spmm_free_contiguous
  rw [if_neg (by omega)]
  refine loop_induct (P := fun k (t : Store × BLOCKDEV_API) =>
    Sets (Run s k) false m dev t.1 t.2) ?_ ?_
  · refine ⟨SameDev.refl dev, OnlyBits.refl _ _ m, ?_, fun _ _ => rfl, id⟩
    intro i hi
    unfold Run at hi
    omega
  · rintro k ⟨m₁, dev₁⟩ hk h
    have hbe := h.same.bitmap
    have hTe := h.same.total_blocks
    have hf := spmm_free_sets m₁ dev₁ (s + k) (by rw [hbe]; exact hbm) (by omega)
      (by rw [hTe]; omega) (by rw [hTe]; exact h64)
    dsimp only
    rw [Nat.mod_eq_of_lt (by omega : s + k < 2 ^ 64)]
    have hin := hf.inside
    have hout := hf.outside
    have honly := hf.only
    dsimp only at hbe hTe h
    rw [hbe] at hin hout honly
    rw [hTe] at honly
    refine ⟨h.same.trans hf.same, h.only.trans honly, ?_, ?_, fun ha => hf.accurate (h.accurate ha)⟩
    · intro i hi
      by_cases hik : i = s + k
      · exact hin i hik
      · rw [hout i hik]
        unfold Run at hi
        exact h.inside i ⟨hi.1, by omega⟩
    · intro i hi
      unfold Run at hi
      rw [hout i (by omega)]
      exact h.outside i fun hc => hi ⟨hc.1, by have := hc.2; omega⟩

/-- Freeing a block, whichever it is, leaves the other blocks as they are. -/
theorem spmm_free_keeps (m : Store) (dev : BLOCKDEV_API) (b : Nat) :
    SameDev dev (spmm_free b m dev).2 ∧
      ∀ i, i ≠ b → (spmm_free b m dev).1.bit dev.bitmap i = m.bit dev.bitmap i := by
  unfold spmm_free
  split
  · exact ⟨SameDev.refl dev, fun _ _ => rfl⟩
  · split
    · refine ⟨⟨rfl, rfl, rfl, rfl, rfl, rfl⟩, fun i hi => ?_⟩
      rw [bit_clearbit, if_neg hi]
    · exact ⟨SameDev.refl dev, fun _ _ => rfl⟩

theorem spmm_free_contiguous_keeps (m : Store) (dev : BLOCKDEV_API) (s count : Nat) :
    SameDev dev (spmm_free_contiguous s count m dev).2 ∧
      (s + count ≤ 2 ^ 64 → ∀ i, ¬ Run s count i →
        (spmm_free_contiguous s count m dev).1.bit dev.bitmap i = m.bit dev.bitmap i) := by
  unfold spmm_free_contiguous
  split
  · exact ⟨SameDev.refl dev, fun _ _ _ => rfl⟩
  refine loop_induct (P := fun k (t : Store × BLOCKDEV_API) => SameDev dev t.2 ∧
    (s + k ≤ 2 ^ 64 → ∀ i, ¬ Run s k i → t.1.bit dev.bitmap i = m.bit dev.bitmap i))
    ⟨SameDev.refl dev, fun _ _ _ => rfl⟩ ?_
  rintro k ⟨m₁, dev₁⟩ - ⟨hsame, hbits⟩
  obtain ⟨hsame₁, hbits₁⟩ := spmm_free_keeps m₁ dev₁ ((s + k) % 2 ^ 64)
  refine ⟨hsame.trans hsame₁, fun hlt i hi => ?_⟩
  have hbm := hsame.bitmap
  dsimp only at hbm hbits₁ ⊢
  unfold Run at hi hbits
  rw [hbm] at hbits₁
  rw [hbits₁ i (by rw [Nat.mod_eq_of_lt (by omega)]; omega)]
  exact hbits (by omega) i (by omega)

end Eke
