/-
The arena of the compiler.

A block is the next piece of 512 KB, rounded up to eight bytes, and all blocks are given back at
once.  `comp_realloc` does not know how long the old block is and copies as many bytes as the new
one has.  It so reads behind the old block, and what it reads there may lie in the new block and
have been overwritten.  The new block is behind the old one and the copy goes forwards, so that this
happens behind the bytes that count, and no byte outside the arena is read.

A request is `Moderate` if its size is a product of two numbers below `2 ^ 32`, which no sum of
64 bits then wraps around.
-/
import Eke.Lib.Bits
import Eke.Lib.ByteLoops
import Eke.Lib.Throughout

namespace Eke

/-- The static variables; addresses are counted from the first byte of `comp_arena`. -/
structure Arena where
  comp_arena : Store
  comp_arena_offset : BitVec 64

namespace Arena

open Store

def COMP_ARENA_SIZE : BitVec 64 := 512 * 1024

def memset (m : Store) (s : Nat) (c : Byte) (n : Nat) : Store := m.fillLoop s n c

def memcpy (m : Store) (dest src n : Nat) : Store := m.copyLoop dest src n

def comp_reset_arena (a : Arena) : Arena := { a with comp_arena_offset := 0 }

/-- The null pointer is `none`. -/
def comp_calloc (a : Arena) (num size : BitVec 64) : Option Nat × Arena :=
  let total := num * size
  let total := (total + 7) &&& ~~~7
  if COMP_ARENA_SIZE < a.comp_arena_offset + total then (none, a)
  else
    let ptr := a.comp_arena_offset.toNat
    (some ptr, ⟨memset a.comp_arena ptr 0 total.toNat, a.comp_arena_offset + total⟩)

def comp_realloc (a : Arena) (ptr : Option Nat) (new_size : BitVec 64) : Option Nat × Arena :=
  match a.comp_calloc 1 new_size, ptr with
  | (some new_ptr, a), some ptr =>
      (some new_ptr, { a with comp_arena := memcpy a.comp_arena new_ptr ptr new_size.toNat })
  | r, _ => r

/-! ### The arithmetic -/

def roundUp (n : Nat) : Nat := (n + 7) / 8 * 8

/-- No size up to this one makes a sum of 64 bits wrap around. -/
def LARGEST : Nat := (2 ^ 32 - 1) * (2 ^ 32 - 1)

variable {a : Arena} {n o : Nat}

theorem le_roundUp (n : Nat) : n ≤ roundUp n ∧ roundUp n < n + 8 := by
  unfold roundUp
  omega

theorem rounded (size : BitVec 64) (h : size.toNat ≤ LARGEST) :
    ((size + 7) &&& ~~~7).toNat = roundUp size.toNat := by
  have hmask : ~~~(7 : BitVec 64) = BitVec.allOnes 64 <<< 3 := by decide
  have hseven : (7 : BitVec 64).toNat = 7 := rfl
  unfold LARGEST at h
  rw [hmask, toNat_clear, BitVec.toNat_add, hseven, Nat.mod_eq_of_lt (by omega)]
  rfl

/-- Nothing is refused but for want of room, and the block is zeroed. -/
theorem calloc_cases (num size : BitVec 64) (hoffset : a.comp_arena_offset.toNat ≤ 524288)
    (hsize : num.toNat * size.toNat ≤ LARGEST) :
    524288 < a.comp_arena_offset.toNat + roundUp (num.toNat * size.toNat) ∧
        a.comp_calloc num size = (none, a) ∨
      a.comp_arena_offset.toNat + roundUp (num.toNat * size.toNat) ≤ 524288 ∧ ∃ o' : BitVec 64,
        o'.toNat = a.comp_arena_offset.toNat + roundUp (num.toNat * size.toNat) ∧
        a.comp_calloc num size = (some a.comp_arena_offset.toNat,
          ⟨a.comp_arena.fill a.comp_arena_offset.toNat (roundUp (num.toNat * size.toNat)) 0, o'⟩) := by
  have htotal : (num * size).toNat = num.toNat * size.toNat := by
    rw [BitVec.toNat_mul]
    unfold LARGEST at hsize
    exact Nat.mod_eq_of_lt (by omega)
  have hround : ((num * size + 7) &&& ~~~7).toNat = roundUp (num.toNat * size.toNat) := by
    rw [rounded _ (by rw [htotal]; exact hsize), htotal]
  have hup := (le_roundUp (num.toNat * size.toNat)).2
  have hsum : (a.comp_arena_offset + ((num * size + 7) &&& ~~~7)).toNat =
      a.comp_arena_offset.toNat + roundUp (num.toNat * size.toNat) := by
    rw [BitVec.toNat_add, hround]
    unfold LARGEST at hsize
    exact Nat.mod_eq_of_lt (by omega)
  have hcapacity : COMP_ARENA_SIZE.toNat = 524288 := rfl
  rcases Nat.lt_or_ge 524288 (a.comp_arena_offset.toNat + roundUp (num.toNat * size.toNat)) with hlt | hge
  · refine .inl ⟨hlt, if_pos ?_⟩
    rw [BitVec.lt_def, hsum, hcapacity]
    exact hlt
  · refine .inr ⟨hge, _, hsum, ?_⟩
    have hroom : ¬ COMP_ARENA_SIZE < a.comp_arena_offset + ((num * size + 7) &&& ~~~7) := by
      rw [BitVec.lt_def, hsum, hcapacity]
      exact Nat.not_lt.mpr hge
    have hzeroed : memset a.comp_arena a.comp_arena_offset.toNat 0 ((num * size + 7) &&& ~~~7).toNat =
        a.comp_arena.fill a.comp_arena_offset.toNat (roundUp (num.toNat * size.toNat)) 0 := by
      rw [← hround]
      exact fillLoop_eq
    unfold comp_calloc
    rw [if_neg hroom]
    simp only [hzeroed]

/-- The memory when the old bytes have been copied into a zeroed block. -/
def copied (m : Store) (ptr : Option Nat) (o n : Nat) : Store :=
  match ptr with
  | none => m.fill o (roundUp n) 0
  | some p => memcpy (m.fill o (roundUp n) 0) o p n

/-- A new block is asked for with `comp_calloc`. -/
theorem realloc_cases (ptr : Option Nat) (new_size : BitVec 64)
    (hoffset : a.comp_arena_offset.toNat ≤ 524288) (hsize : new_size.toNat ≤ LARGEST) :
    524288 < a.comp_arena_offset.toNat + roundUp new_size.toNat ∧ a.comp_realloc ptr new_size = (none, a) ∨
      a.comp_arena_offset.toNat + roundUp new_size.toNat ≤ 524288 ∧ ∃ o' : BitVec 64,
        o'.toNat = a.comp_arena_offset.toNat + roundUp new_size.toNat ∧
        a.comp_realloc ptr new_size = (some a.comp_arena_offset.toNat,
          ⟨copied a.comp_arena ptr a.comp_arena_offset.toNat new_size.toNat, o'⟩) := by
  have hone : (1 : BitVec 64).toNat * new_size.toNat = new_size.toNat := Nat.one_mul _
  have h := calloc_cases 1 new_size hoffset (by rw [hone]; exact hsize)
  rw [hone] at h
  unfold comp_realloc
  rcases h with ⟨hlt, hno⟩ | ⟨hle, o', ho', hyes⟩
  · rw [hno]
    exact .inl ⟨hlt, rfl⟩
  · rw [hyes]
    refine .inr ⟨hle, o', ho', ?_⟩
    cases ptr with
    | none => rfl
    | some p => rfl

/-- Copying into a block does not leave it. -/
theorem copied_out {m : Store} {x : Nat} (h : x < o ∨ o + roundUp n ≤ x) : copied m ptr o n x = m x := by
  have hn := (le_roundUp n).1
  unfold copied
  cases ptr with
  | none => exact fill_out h
  | some p =>
      unfold memcpy
      simp only []
      rw [copyLoop_out (by omega), fill_out h]

/-- The bytes in front of the new block arrive. -/
theorem copied_in {m : Store} {p i : Nat} (hi : i < n) (h : p + i < o) :
    copied m (some p) o n (o + i) = m (p + i) := by
  show memcpy _ o p n (o + i) = _
  unfold memcpy
  rw [copyLoop_in hi h, fill_out (.inl h)]

/-! ### Requests one after the other -/

inductive Request where
  | calloc (num size : BitVec 64)
  | realloc (ptr : Option Nat) (new_size : BitVec 64)
  /-- What the compiler itself writes between two requests. -/
  | write (address : Nat) (value : Byte)

/-- The arena with the blocks that have been handed out, and the sizes asked for. -/
structure Lent where
  arena : Arena
  blocks : List (Nat × Nat)

namespace Lent

variable {s : Lent} {e : Request}

def lend (s : Lent) (size : Nat) (r : Option Nat × Arena) : Lent :=
  ⟨r.2, match r.1 with
    | none => s.blocks
    | some o => (o, size) :: s.blocks⟩

def next (s : Lent) : Request → Lent
  | .calloc num size => s.lend (num.toNat * size.toNat) (s.arena.comp_calloc num size)
  | .realloc ptr new_size => s.lend new_size.toNat (s.arena.comp_realloc ptr new_size)
  | .write x v => { s with arena := { s.arena with comp_arena := s.arena.comp_arena.set x v } }

/-- Behind `comp_reset_arena`. -/
def start (a : Arena) : Lent := ⟨a.comp_reset_arena, []⟩

/-- Sizes below `2 ^ 32` are moderate, and so is every product of two numbers below it. -/
def Moderate : Request → Prop
  | .calloc num size => num.toNat * size.toNat ≤ LARGEST
  | .realloc _ new_size => new_size.toNat ≤ LARGEST
  | .write _ _ => True

/-- The block at `o` is in the arena and behind every earlier one, with the padding of both, and no
byte outside it is another one than before.  An empty block may be at the end of the arena. -/
structure Placed (s : Lent) (size o : Nat) (a : Arena) : Prop where
  aligned : 8 ∣ o
  inside : o + roundUp size ≤ COMP_ARENA_SIZE.toNat
  apart : ∀ b ∈ s.blocks, b.1 + roundUp b.2 ≤ o
  frame : ∀ x, x < o ∨ o + roundUp size ≤ x → a.comp_arena x = s.arena.comp_arena x

/-- A refused request changes nothing, and `P` holds of the new block. -/
def Served (s : Lent) (size : Nat) (P : Nat → Store → Prop) : Option Nat × Arena → Prop
  | (none, a) => a = s.arena
  | (some o, a) => s.Placed size o a ∧ P o a.comp_arena

/-- A block that is given up for a larger one can be read as far as the larger one reaches, and all
of it is at the front of that. -/
structure Moved (s : Lent) (ptr : Option Nat) (new_size o : Nat) (m : Store) : Prop where
  reads : ∀ b ∈ s.blocks, ptr = some b.1 → b.1 + new_size ≤ COMP_ARENA_SIZE.toNat
  kept : ∀ b ∈ s.blocks, ptr = some b.1 → ∀ i < b.2, i < new_size → m (o + i) = s.arena.comp_arena (b.1 + i)

/-- A request is served as an allocator should. -/
def Sound (s : Lent) : Request → Prop
  | .calloc num size => s.Served (num.toNat * size.toNat)
      (fun o m => ∀ x, o ≤ x → x < o + roundUp (num.toNat * size.toNat) → m x = 0)
      (s.arena.comp_calloc num size)
  | .realloc ptr new_size => s.Served new_size.toNat (s.Moved ptr new_size.toNat)
      (s.arena.comp_realloc ptr new_size)
  | .write _ _ => True

/-- What holds between the requests. -/
structure Shaped (s : Lent) : Prop where
  bound : s.arena.comp_arena_offset.toNat ≤ 524288
  aligned : 8 ∣ s.arena.comp_arena_offset.toNat
  below : ∀ b ∈ s.blocks, b.1 + roundUp b.2 ≤ s.arena.comp_arena_offset.toNat

theorem start_shaped (a : Arena) : (start a).Shaped := by
  refine ⟨Nat.zero_le _, Nat.dvd_zero 8, ?_⟩
  intro b hb
  cases hb

/-- A block at the offset is rightly placed. -/
theorem Shaped.placed {size : Nat} {m : Store} {o' : BitVec 64} (h : s.Shaped)
    (hroom : s.arena.comp_arena_offset.toNat + roundUp size ≤ 524288)
    (hframe : ∀ x, x < s.arena.comp_arena_offset.toNat ∨
      s.arena.comp_arena_offset.toNat + roundUp size ≤ x → m x = s.arena.comp_arena x) :
    s.Placed size s.arena.comp_arena_offset.toNat ⟨m, o'⟩ :=
  ⟨h.aligned, hroom, h.below, hframe⟩

/-- When it is lent, the next one goes behind it. -/
theorem Shaped.lend {size : Nat} {m : Store} {o' : BitVec 64} (h : s.Shaped)
    (hroom : s.arena.comp_arena_offset.toNat + roundUp size ≤ 524288)
    (ho' : o'.toNat = s.arena.comp_arena_offset.toNat + roundUp size) :
    (s.lend size (some s.arena.comp_arena_offset.toNat, ⟨m, o'⟩)).Shaped := by
  have haligned := h.aligned
  refine ⟨?_, ?_, ?_⟩
  · show o'.toNat ≤ 524288
    omega
  · show 8 ∣ o'.toNat
    unfold roundUp at ho'
    omega
  · intro b hb
    show b.1 + roundUp b.2 ≤ o'.toNat
    rcases List.mem_cons.mp hb with rfl | hb
    · exact Nat.le_of_eq ho'.symm
    · have hbelow := h.below b hb
      omega

/-- A moderate request is served soundly, and leaves the arena in shape. -/
theorem Shaped.step (h : s.Shaped) (he : Moderate e) : s.Sound e ∧ (s.next e).Shaped := by
  cases e with
  | calloc num size =>
      unfold Sound next
      rcases calloc_cases num size h.bound he with ⟨-, hno⟩ | ⟨hroom, o', ho', hyes⟩
      · simp only [hno]
        exact ⟨rfl, h⟩
      · simp only [hyes]
        refine ⟨⟨h.placed hroom fun x hx => fill_out hx, ?_⟩, h.lend hroom ho'⟩
        intro x hlow hhigh
        exact fill_in hlow hhigh
  | realloc ptr new_size =>
      unfold Sound next
      rcases realloc_cases ptr new_size h.bound he with ⟨-, hno⟩ | ⟨hroom, o', ho', hyes⟩
      · simp only [hno]
        exact ⟨rfl, h⟩
      · simp only [hyes]
        refine ⟨⟨h.placed hroom fun x hx => copied_out hx, ⟨?_, ?_⟩⟩, h.lend hroom ho'⟩
        · intro b hb _
          have hbelow := h.below b hb
          have hup := (le_roundUp new_size.toNat).1
          show b.1 + new_size.toNat ≤ 524288
          omega
        · intro b hb hptr i hi hnew
          have hbelow := h.below b hb
          have hup := (le_roundUp b.2).1
          show copied s.arena.comp_arena ptr _ _ _ = _
          rw [hptr]
          exact copied_in hnew (by omega)
  | write x v => exact ⟨trivial, h.bound, h.aligned, h.below⟩

theorem Shaped.run {es : List Request} (hes : ∀ e ∈ es, Moderate e) : ∀ {s : Lent}, s.Shaped →
    Throughout next Sound s es ∧ (es.foldl next s).Shaped := by
  induction es with
  | nil =>
      intro s h
      exact ⟨trivial, h⟩
  | cons e es ih =>
      intro s h
      obtain ⟨hsound, hnext⟩ := h.step (hes e (List.mem_cons_self ..))
      obtain ⟨hrest, hend⟩ := ih (fun e' he' => hes e' (List.mem_cons_of_mem _ he')) hnext
      exact ⟨⟨hsound, hrest⟩, hend⟩

end Lent

end Arena

end Eke
