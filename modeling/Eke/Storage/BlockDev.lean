/-
Block devices.

`BLOCKDEV_API` of `kernel/module_api.h`: the medium, the two sector operations, and
the block-allocation state `storage/spmm.cpp` keeps in the same structure.  The
medium is a store of 512-byte sectors.  Whether a sector operation succeeds is up to
the device: `io n` is the outcome of the `n`-th operation since boot, `none` for a
success and `some k` for a failure after `k` sectors went through.
-/
import Eke.Lib.Bits

namespace Eke

def SECTOR_SIZE : Nat := 512

structure BLOCKDEV_API where
  total_sectors : Nat
  /-- The medium, sector `lba` at bytes `512 * lba` on. -/
  sectors : Store
  io : Nat → Option Nat
  /-- Sector operations issued so far. -/
  ops : Nat
  /-- Address of the in-memory block bit map, 0 when there is none. -/
  bitmap : Nat
  total_blocks : Nat
  free_blocks : Nat
  last_free_block : Nat

namespace BLOCKDEV_API

/-- `read_sectors(lba, count, buffer)`; `count` is a 32-bit parameter. -/
def read_sectors (dev : BLOCKDEV_API) (lba count : Nat) (m : Store) (buffer : Nat) :
    Int × Store × BLOCKDEV_API :=
  let n := count % 2 ^ 32
  let dev' := { dev with ops := dev.ops + 1 }
  match dev.io dev.ops with
  | none => (0, m.blit buffer (n * SECTOR_SIZE) dev.sectors (lba * SECTOR_SIZE), dev')
  | some k => (-1, m.blit buffer (min k n * SECTOR_SIZE) dev.sectors (lba * SECTOR_SIZE), dev')

/-- `write_sectors(lba, count, buffer)`; `count` is a 32-bit parameter. -/
def write_sectors (dev : BLOCKDEV_API) (lba count : Nat) (m : Store) (buffer : Nat) :
    Int × BLOCKDEV_API :=
  let n := count % 2 ^ 32
  let put (len : Nat) : BLOCKDEV_API :=
    { dev with
      ops := dev.ops + 1
      sectors := dev.sectors.blit (lba * SECTOR_SIZE) (len * SECTOR_SIZE) m buffer }
  match dev.io dev.ops with
  | none => (0, put n)
  | some k => (-1, put (min k n))

/-- Every sector operation of the device succeeds. -/
def Reliable (dev : BLOCKDEV_API) : Prop := ∀ n, dev.io n = none

/-- The next `n` sector operations succeed. -/
def Quiet (dev : BLOCKDEV_API) (n : Nat) : Prop := ∀ k, k < n → dev.io (dev.ops + k) = none

variable {dev : BLOCKDEV_API} {lba count buffer : Nat} {m : Store}

theorem Reliable.quiet (h : dev.Reliable) (n : Nat) : dev.Quiet n := fun k _ => h (dev.ops + k)

theorem Quiet.first {n : Nat} (h : dev.Quiet n) (hn : 0 < n) : dev.io dev.ops = none := h 0 hn

theorem read_sectors_ok (h : dev.io dev.ops = none) (hc : count < 2 ^ 32) :
    dev.read_sectors lba count m buffer =
      (0, m.blit buffer (count * SECTOR_SIZE) dev.sectors (lba * SECTOR_SIZE),
        { dev with ops := dev.ops + 1 }) := by
  simp only [read_sectors, h, Nat.mod_eq_of_lt hc]

theorem write_sectors_ok (h : dev.io dev.ops = none) (hc : count < 2 ^ 32) :
    dev.write_sectors lba count m buffer =
      (0, { dev with
        ops := dev.ops + 1
        sectors := dev.sectors.blit (lba * SECTOR_SIZE) (count * SECTOR_SIZE) m buffer }) := by
  simp only [write_sectors, h, Nat.mod_eq_of_lt hc]

theorem read_sectors_reliable (h : dev.Reliable) (hc : count < 2 ^ 32) :
    dev.read_sectors lba count m buffer =
      (0, m.blit buffer (count * SECTOR_SIZE) dev.sectors (lba * SECTOR_SIZE),
        { dev with ops := dev.ops + 1 }) := read_sectors_ok (h _) hc

theorem write_sectors_reliable (h : dev.Reliable) (hc : count < 2 ^ 32) :
    dev.write_sectors lba count m buffer =
      (0, { dev with
        ops := dev.ops + 1
        sectors := dev.sectors.blit (lba * SECTOR_SIZE) (count * SECTOR_SIZE) m buffer }) :=
  write_sectors_ok (h _) hc

/-- A read counts as one operation, whatever comes of it. -/
theorem read_sectors_dev (dev : BLOCKDEV_API) (lba count : Nat) (m : Store) (buffer : Nat) :
    (dev.read_sectors lba count m buffer).2.2 = { dev with ops := dev.ops + 1 } := by
  unfold read_sectors
  dsimp only
  split
  · rfl
  · rfl

/-- So does a write, which touches nothing but the medium. -/
theorem write_sectors_dev (dev : BLOCKDEV_API) (lba count : Nat) (m : Store) (buffer : Nat) :
    ∃ sectors, (dev.write_sectors lba count m buffer).2 =
      { dev with ops := dev.ops + 1, sectors := sectors } := by
  unfold write_sectors
  dsimp only
  split
  · exact ⟨_, rfl⟩
  · exact ⟨_, rfl⟩

end BLOCKDEV_API

end Eke
