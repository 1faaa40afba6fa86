/-
EKE-FS.

The functions of `modules/fs/eke_fs.cpp` over one state: the physical memory, the
page allocator, the block devices and the file system's own static variables.  The
block bit map, the file table and the temporary sector buffers all live in that one
memory, at the addresses the page allocator returned, because that is where the file
system finds them: a file-table slot is the 68 bytes at `file_table + 68 * i`, and
what `read_sectors` does not fill keeps whatever the page held before.

A path is a C string, a caller's buffer is a store read or written from offset 0,
and a null pointer is `none`.  What is printed is left out.
-/
import Eke.Memory.Pmm
import Eke.Storage.Spmm

namespace Eke

def EKE_FS_MAGIC : Nat := 0x454B4546
def MAX_FILES : Nat := 64

/-- The bytes of a C string before its terminator. -/
structure CStr where
  chars : List Byte
  nonzero : ∀ c ∈ chars, c ≠ 0

structure Superblock where
  magic : Nat
  block_size : Nat
  total_blocks : Nat
  bitmap_start_lba : Nat
  bitmap_block_count : Nat
  file_table_start_lba : Nat
  file_table_block_count : Nat
  data_start_lba : Nat

namespace Superblock

/-- `*sb_ptr` read from the bytes at `a`. -/
def load (m : Store) (a : Nat) : Superblock where
  magic := m.le a 4
  block_size := m.le (a + 4) 4
  total_blocks := m.le (a + 8) 8
  bitmap_start_lba := m.le (a + 16) 8
  bitmap_block_count := m.le (a + 24) 8
  file_table_start_lba := m.le (a + 32) 8
  file_table_block_count := m.le (a + 40) 8
  data_start_lba := m.le (a + 48) 8

/-- The 56 bytes of a superblock copied to `a`. -/
def save (sb : Superblock) (m : Store) (a : Nat) : Store :=
  let m := m.setLe a 4 sb.magic
  let m := m.setLe (a + 4) 4 sb.block_size
  let m := m.setLe (a + 8) 8 sb.total_blocks
  let m := m.setLe (a + 16) 8 sb.bitmap_start_lba
  let m := m.setLe (a + 24) 8 sb.bitmap_block_count
  let m := m.setLe (a + 32) 8 sb.file_table_start_lba
  let m := m.setLe (a + 40) 8 sb.file_table_block_count
  m.setLe (a + 48) 8 sb.data_start_lba

/-- The superblock `eke_fs_format` computes for a device. -/
def forDevice (total_sectors : Nat) : Superblock :=
  let bitmap_block_count := (total_sectors / 8 + SECTOR_SIZE - 1) / SECTOR_SIZE
  { magic := EKE_FS_MAGIC
    block_size := SECTOR_SIZE
    total_blocks := total_sectors
    bitmap_start_lba := 1
    bitmap_block_count := bitmap_block_count
    file_table_start_lba := 1 + bitmap_block_count
    file_table_block_count := 8
    data_start_lba := 1 + bitmap_block_count + 8 }

end Superblock

/-! ### File-table slots

`sizeof(FileEntry)` is 32 + 4 + 4 + 4 + 1 + 23.
-/

def FileEntrySize : Nat := 68

namespace FileEntry

def size (m : Store) (e : Nat) : Nat := m.le (e + 32) 4
def start_block (m : Store) (e : Nat) : Nat := m.le (e + 36) 4
def block_count (m : Store) (e : Nat) : Nat := m.le (e + 40) 4
def used (m : Store) (e : Nat) : Bool := m (e + 44) != 0

end FileEntry

/-- `str_eq` between the string at `a` and a path. -/
def str_eq (m : Store) (a : Nat) : List Byte → Bool
  | [] => m a == 0
  | c :: cs => if m a = 0 then false else if m a = c then str_eq m (a + 1) cs else false

/-- `str_copy`, with `room` bytes left before the terminator's. -/
def str_copy (m : Store) (dest : Nat) : List Byte → Nat → Store
  | c :: cs, room + 1 => str_copy (m.set dest c) (dest + 1) cs room
  | _, _ => m.set dest 0

/-- The C string in the `n` bytes from `a` on. -/
def cstr (m : Store) (a : Nat) : Nat → List Byte
  | 0 => []
  | n + 1 => if m a = 0 then [] else m a :: cstr m (a + 1) n

/-! ### The state -/

structure Sys where
  mem : Store
  pmm : Pmm
  disks : Nat → BLOCKDEV_API
  /-- `g_api` has been set by `eke_fs_init`. -/
  g_api : Bool
  active_dev : Option Nat
  active_sb : Superblock
  file_table : Nat
  bitmap_buf : Nat

namespace Sys

def setDisk (s : Sys) (d : Nat) (dev : BLOCKDEV_API) : Sys :=
  { s with disks := fun i => if i = d then dev else s.disks i }

/-- `g_api->alloc_page(n)` when there is a `g_api`, else a null pointer. -/
def alloc_page (s : Sys) (n : Nat) : Nat × Sys :=
  if s.g_api then
    let r := s.pmm.alloc_page (toInt n)
    (r.1, { s with pmm := r.2 })
  else (0, s)

def free_page (s : Sys) (addr : Nat) : Sys :=
  if s.g_api then { s with pmm := s.pmm.free_page addr } else s

/-- The address of `file_table[i]`. -/
def entry (s : Sys) (i : Nat) : Nat := s.file_table + FileEntrySize * i

end Sys

/-! ### Format and mount -/

/-- `eke_fs_format`. -/
def eke_fs_format (s : Sys) : Option Nat → Int × Sys
  | none => (-1, s)
  | some d =>
    let sb := Superblock.forDevice (s.disks d).total_sectors
    let zero : Store := fun _ => 0
    let dev := ((s.disks d).write_sectors 0 1 (sb.save zero 0) 0).2
    let dev := loop (fun i dev => (dev.write_sectors (sb.bitmap_start_lba + i) 1 zero 0).2)
      sb.bitmap_block_count dev
    let dev := loop (fun i dev => (dev.write_sectors (sb.file_table_start_lba + i) 1 zero 0).2)
      sb.file_table_block_count dev
    (0, s.setDisk d dev)

/-- `(bytes + 4095) / 4096` in 64 bits, for `blocks` sectors. -/
def pages_of (blocks : Nat) : Nat := (blocks * SECTOR_SIZE % 2 ^ 64 + 4095) % 2 ^ 64 / 4096

/-- The bit map's buffer, allocated by the first mount. -/
def alloc_bitmap (s : Sys) : Sys :=
  if s.bitmap_buf = 0 ∧ s.g_api then
    let r := s.alloc_page (pages_of s.active_sb.bitmap_block_count)
    { r.2 with bitmap_buf := r.1 }
  else s

/-- The file table's buffer, allocated by the first mount. -/
def alloc_table (s : Sys) : Sys :=
  if s.file_table = 0 ∧ s.g_api then
    let r := s.alloc_page (pages_of s.active_sb.file_table_block_count)
    { r.2 with file_table := r.1 }
  else s

/-- `eke_fs_mount` up to the reserved blocks: the bit map. -/
def mount_bitmap (s : Sys) (d : Nat) : Sys :=
  let sb := s.active_sb
  let s := alloc_bitmap s
  let r := (s.disks d).read_sectors sb.bitmap_start_lba sb.bitmap_block_count s.mem s.bitmap_buf
  let i := spmm_init r.2.1 r.2.2 s.bitmap_buf sb.total_blocks false
  let k := loop (fun b (t : Store × BLOCKDEV_API) => spmm_mark_used b t.1 t.2) sb.data_start_lba i
  { s with mem := k.1 }.setDisk d k.2

/-- The rest of `eke_fs_mount`: the file table. -/
def mount_table (s : Sys) (d : Nat) : Sys :=
  let sb := s.active_sb
  let s := alloc_table s
  let r := (s.disks d).read_sectors sb.file_table_start_lba sb.file_table_block_count s.mem
    s.file_table
  { s with mem := r.2.1 }.setDisk d r.2.2

/-- `eke_fs_mount` once sector 0 is in `sector_buf`. -/
def mount_super (s : Sys) (d : Nat) (sector_buf : Store) : Sys :=
  mount_table (mount_bitmap
    { s with active_sb := Superblock.load sector_buf 0, active_dev := some d } d) d

/-- `eke_fs_mount`. -/
def eke_fs_mount (s : Sys) : Option Nat → Int × Sys
  | none => (-1, s)
  | some d =>
    let r := (s.disks d).read_sectors 0 1 (fun _ => 0) 0
    let s := s.setDisk d r.2.2
    if r.1 ≠ 0 then (-1, s)
    else if (Superblock.load r.2.1 0).magic ≠ EKE_FS_MAGIC then
      let f := eke_fs_format s (some d)
      if f.1 ≠ 0 then (-1, f.2)
      else
        let r' := (f.2.disks d).read_sectors 0 1 r.2.1 0
        (0, mount_super (f.2.setDisk d r'.2.2) d r'.2.1)
    else (0, mount_super s d r.2.1)

/-! ### File operations -/

/-- The first used slot whose name is `path`. -/
def find_file (s : Sys) (path : CStr) : Option Nat :=
  (List.range MAX_FILES).find? fun i =>
    FileEntry.used s.mem (s.entry i) && str_eq s.mem (s.entry i) path.chars

/-- The first unused slot. -/
def find_free (s : Sys) : Option Nat :=
  (List.range MAX_FILES).find? fun i => !FileEntry.used s.mem (s.entry i)

/-- `(blocks * SECTOR_SIZE + 4095) / 4096` for a `uint32_t` number of blocks. -/
def temp_pages (blocks : Nat) : Nat := (blocks * SECTOR_SIZE % 2 ^ 32 + 4095) % 2 ^ 32 / 4096

/-- `eke_fs_read_file`: the result and the caller's buffer. -/
def eke_fs_read_file (s : Sys) (path : Option CStr) (buffer : Option Store) (max_bytes : Nat) :
    Int × Option Store × Sys :=
  match s.active_dev, path, buffer with
  | some d, some path, some buf =>
    if s.file_table = 0 then (-1, some buf, s)
    else
      match find_file s path with
      | none => (-1, some buf, s)
      | some i =>
        let e := s.entry i
        let to_read := min (FileEntry.size s.mem e) max_bytes
        if to_read = 0 then (0, some buf, s)
        else
          let blocks := FileEntry.block_count s.mem e
          let a := s.alloc_page (temp_pages blocks)
          let temp := a.1
          let s := a.2
          if temp = 0 then (-1, some buf, s)
          else
            let r := (s.disks d).read_sectors (FileEntry.start_block s.mem e) blocks s.mem temp
            let s := { s with mem := r.2.1 }.setDisk d r.2.2
            (toInt to_read, some (buf.blit 0 to_read s.mem temp), s.free_page temp)
  | _, _, _ => (-1, buffer, s)

/-- The two metadata writes that end `eke_fs_write_file` and `eke_fs_delete_file`. -/
def flush_metadata (s : Sys) (d : Nat) : Sys :=
  let sb := s.active_sb
  let dev := ((s.disks d).write_sectors sb.bitmap_start_lba sb.bitmap_block_count s.mem
    (s.disks d).bitmap).2
  let dev := (dev.write_sectors sb.file_table_start_lba sb.file_table_block_count s.mem
    s.file_table).2
  s.setDisk d dev

/-- Run an operation of the sector allocator on the active device. -/
def Sys.onDisk (s : Sys) (d : Nat) (r : Store × BLOCKDEV_API) : Sys :=
  { s with mem := r.1 }.setDisk d r.2

/-- `uint32_t blocks` of `eke_fs_write_file`. -/
def blocks_for (bytes : Nat) : Nat :=
  let blocks := (bytes + SECTOR_SIZE - 1) % 2 ^ 64 / SECTOR_SIZE % 2 ^ 32
  if blocks = 0 then 1 else blocks

/-- The extent of an existing file freed, and the slot to write to. -/
def write_target (s : Sys) (d : Nat) (path : CStr) : Option Nat × Sys :=
  match find_file s path with
  | some i =>
    (some i, s.onDisk d (spmm_free_contiguous (FileEntry.start_block s.mem (s.entry i))
      (FileEntry.block_count s.mem (s.entry i)) s.mem (s.disks d)))
  | none => (find_free s, s)

/-- The new contents of slot `e`. -/
def update_entry (m : Store) (e : Nat) (path : CStr) (bytes start_block blocks : Nat) : Store :=
  let m := str_copy m e path.chars 31
  let m := m.setLe (e + 32) 4 bytes
  let m := m.setLe (e + 36) 4 start_block
  let m := m.setLe (e + 40) 4 blocks
  m.set (e + 44) 1

/-- `eke_fs_write_file` from the temporary buffer on. -/
def write_data (s : Sys) (d i : Nat) (path : CStr) (buf : Store) (bytes blocks start_block temp : Nat) :
    Sys :=
  let mem := s.mem.fill temp (blocks * SECTOR_SIZE % 2 ^ 32) 0
  let mem := mem.blit temp bytes buf 0
  let dev := ((s.disks d).write_sectors start_block blocks mem temp).2
  let s := ({ s with mem := mem }.setDisk d dev).free_page temp
  let s := { s with mem := update_entry s.mem (s.entry i) path bytes start_block blocks }
  flush_metadata s d

/-- `eke_fs_write_file`. -/
def eke_fs_write_file (s : Sys) (path : Option CStr) (buffer : Option Store) (bytes : Nat) :
    Int × Sys :=
  match s.active_dev, path, buffer with
  | some d, some path, some buf =>
    if s.file_table = 0 then (-1, s)
    else
      let blocks := blocks_for bytes
      let t := write_target s d path
      match t.1 with
      | none => (-2, t.2)
      | some i =>
        let a := spmm_alloc_contiguous blocks t.2.mem (t.2.disks d)
        if a.1 = 0 then (-3, t.2)
        else
          let s := t.2.onDisk d a.2
          let p := s.alloc_page (temp_pages blocks)
          if p.1 = 0 then (-1, p.2)
          else (0, write_data p.2 d i path buf bytes blocks a.1 p.1)
  | _, _, _ => (-1, s)

/-- `eke_fs_get_size`. -/
def eke_fs_get_size (s : Sys) (path : Option CStr) : Nat :=
  match path with
  | some path =>
    if s.file_table = 0 then 0
    else
      match find_file s path with
      | some i => FileEntry.size s.mem (s.entry i)
      | none => 0
  | none => 0

/-- `eke_fs_delete_file`. -/
def eke_fs_delete_file (s : Sys) (path : Option CStr) : Int × Sys :=
  match s.active_dev, path with
  | some d, some path =>
    if s.file_table = 0 then (-1, s)
    else
      match find_file s path with
      | none => (-1, s)
      | some i =>
        let e := s.entry i
        let s := s.onDisk d (spmm_free_contiguous (FileEntry.start_block s.mem e)
          (FileEntry.block_count s.mem e) s.mem (s.disks d))
        let s := { s with mem := (s.mem.set (e + 44) 0).set e 0 }
        (0, flush_metadata s d)
  | _, _ => (-1, s)

/-- `eke_fs_list_files`: the name and size the callback gets for each used slot. -/
def eke_fs_list_files (s : Sys) : List (List Byte × Nat) :=
  if s.file_table = 0 then []
  else
    ((List.range MAX_FILES).filter fun i => FileEntry.used s.mem (s.entry i)).map fun i =>
      (cstr s.mem (s.entry i) 32, FileEntry.size s.mem (s.entry i))

end Eke
