/-
The buffer of the block bit map over several mounts.

A mount that finds `bitmap_buf` null asks for pages for the bit map of its own device, and every
later mount uses the same buffer for the bit map of the device it mounts.  So whether the buffer
has room is a matter of two superblocks: the one of the mount that allocated and the one in use.
-/
import Eke.Lib.Throughout
import Eke.Fs.Mounting

namespace Eke

/-! ### What a superblock needs -/

namespace Superblock

/-- The pages a mount with this superblock asks for. -/
def bitmapPages (sb : Superblock) : Nat := (toInt (pages_of sb.bitmap_block_count)).toNat

/-- Byte `x` of the buffer is in a sector of the bit map or in the word of a block. -/
def Touches (sb : Superblock) (x : Nat) : Prop :=
  x < SECTOR_SIZE * sb.bitmap_block_count ∨ ∃ b, b < sb.total_blocks ∧ 8 * (b / 64) ≤ x ∧ x < 8 * (b / 64) + 8

/-- The pages asked for with `own` have room for what `sb` needs. -/
def Covers (own sb : Superblock) : Prop :=
  SECTOR_SIZE * sb.bitmap_block_count ≤ 4096 * own.bitmapPages ∧ sb.total_blocks ≤ 32768 * own.bitmapPages

theorem covers_iff {own sb : Superblock} :
    own.Covers sb ↔ ∀ x, sb.Touches x → x < 4096 * own.bitmapPages := by
  constructor
  · rintro ⟨hsectors, hblocks⟩ x (hx | ⟨b, hb, -, hx⟩)
    · omega
    · omega
  · intro h
    constructor
    · by_contra hlong
      have hlast := h (4096 * own.bitmapPages) (Or.inl (by omega))
      omega
    · by_contra hlong
      have hlast := h (8 * (32768 * own.bitmapPages / 64))
        (Or.inr ⟨32768 * own.bitmapPages, by omega, by omega, by omega⟩)
      omega

/-- A device's own pages fall short where its last few blocks do not fill a byte of a new page. -/
theorem covers_self {T : Nat} (hT : T < 2 ^ 43) :
    (forDevice T).Covers (forDevice T) ↔ T % 32768 = 0 ∨ 8 ≤ T % 32768 := by
  have hcount : (forDevice T).bitmap_block_count = (T / 8 + 511) / 512 := rfl
  have hpages : (forDevice T).bitmapPages = ((T / 8 + 511) / 512 * 512 + 4095) / 4096 := by
    unfold bitmapPages
    rw [hcount, toInt_of_lt (by unfold pages_of SECTOR_SIZE; omega)]
    unfold pages_of SECTOR_SIZE
    omega
  unfold Covers
  rw [hpages, hcount]
  show SECTOR_SIZE * _ ≤ _ ∧ T ≤ _ ↔ _
  unfold SECTOR_SIZE
  omega

end Superblock

/-! ### Mounts one after the other -/

/-- The file system, the pages that back `bitmap_buf`, and the superblock they were asked for with. -/
structure Hosted where
  sys : Sys
  pages : Nat → Bool
  own : Superblock

namespace Hosted

/-- Before the first mount there is no buffer. -/
def start (s : Sys) : Hosted := ⟨{ s with bitmap_buf := 0 }, fun _ => false, s.active_sb⟩

/-- The pages that are in use because of the allocation for the bit map. -/
def taken (s : Sys) (sb : Superblock) (i : Nat) : Bool :=
  (alloc_bitmap { s with active_sb := sb }).pmm.used i && !s.pmm.used i

def mount (h : Hosted) (d : Nat) : Int × Hosted :=
  let r := eke_fs_mount h.sys (some d)
  (r.1, if r.1 = 0 ∧ h.sys.bitmap_buf = 0 then ⟨r.2, taken h.sys r.2.active_sb, r.2.active_sb⟩
    else { h with sys := r.2 })

/-- Whatever a mount and the allocators touch of the bit map is inside the buffer. -/
def Room (h : Hosted) : Prop :=
  ∀ x, h.sys.active_sb.Touches x → h.sys.bitmap_buf ≠ 0 ∧ h.pages ((h.sys.bitmap_buf + x) / 4096) = true

/-- The device fits the buffer: the one it gets if there is none yet, or the one there is. -/
def Suits (h : Hosted) (d : Nat) : Prop :=
  let sb := superblockOf (h.sys.disks d)
  if h.sys.bitmap_buf = 0 then
    sb.bitmap_block_count = 0 ∧ sb.total_blocks = 0 ∨
      h.sys.g_api = true ∧ (h.sys.pmm.alloc_page (toInt (pages_of sb.bitmap_block_count))).1 ≠ 0 ∧ sb.Covers sb
  else h.own.Covers sb

/-- The state a mount leaves. -/
def next (h : Hosted) (d : Nat) : Hosted := (h.mount d).2

/-- The pages are the run that was asked for. -/
def Backed (h : Hosted) : Prop :=
  h.sys.bitmap_buf ≠ 0 → ∃ b, h.sys.bitmap_buf = b * 4096 ∧
    ∀ i, h.pages i = decide (b ≤ i ∧ i < b + h.own.bitmapPages)

variable {h : Hosted} {s : Sys} {d : Nat} {dev : BLOCKDEV_API} {sb : Superblock}

theorem Backed.room_iff (hb : h.Backed) (hne : h.sys.bitmap_buf ≠ 0) : h.Room ↔ h.own.Covers h.sys.active_sb := by
  obtain ⟨b, haddr, hpages⟩ := hb hne
  unfold Room
  rw [Superblock.covers_iff]
  simp only [hpages, decide_eq_true_eq]
  constructor
  · intro hroom x hx
    have := (hroom x hx).2
    omega
  · intro hcov x hx
    have := hcov x hx
    exact ⟨hne, by omega⟩

/-- Without a buffer there is room for nothing. -/
theorem room_null (hzero : h.sys.bitmap_buf = 0) :
    h.Room ↔ h.sys.active_sb.bitmap_block_count = 0 ∧ h.sys.active_sb.total_blocks = 0 := by
  unfold Room
  constructor
  · intro hroom
    constructor
    · by_contra hsome
      exact (hroom 0 (Or.inl (by unfold SECTOR_SIZE; omega))).1 hzero
    · by_contra hsome
      exact (hroom 0 (Or.inr ⟨0, by omega, by omega, by omega⟩)).1 hzero
  · rintro ⟨hsectors, hblocks⟩ x (hx | ⟨b, hb, -⟩)
    · rw [hsectors] at hx
      omega
    · omega

/-! ### One mount -/

theorem alloc_bitmap_some (hne : s.bitmap_buf ≠ 0) : alloc_bitmap s = s := by
  unfold alloc_bitmap
  rw [if_neg fun h => hne h.1]

/-- A refused mount changes nothing but the device's count of operations. -/
theorem mount_refused_buf (hio : (s.disks d).io (s.disks d).ops ≠ none) :
    (eke_fs_mount s (some d)).1 = -1 ∧ (eke_fs_mount s (some d)).2.bitmap_buf = s.bitmap_buf := by
  obtain ⟨k, hk⟩ := Option.ne_none_iff_exists'.mp hio
  rw [mount_refused hk]
  exact ⟨rfl, rfl⟩

/-- The allocation for the bit map is a run of the pages asked for, all new. -/
theorem taken_pages (hne : (alloc_bitmap { s with active_sb := sb }).bitmap_buf ≠ 0) (hzero : s.bitmap_buf = 0) :
    s.g_api = true ∧ (s.pmm.alloc_page (toInt (pages_of sb.bitmap_block_count))).1 ≠ 0 ∧
      ∃ b, (alloc_bitmap { s with active_sb := sb }).bitmap_buf = b * 4096 ∧
        ∀ i, taken s sb i = decide (b ≤ i ∧ i < b + sb.bitmapPages) := by
  have hapi : s.g_api = true := by
    by_contra hapi
    refine hne ?_
    unfold alloc_bitmap
    rw [if_neg fun h => hapi h.2]
    exact hzero
  have halloc := alloc_bitmap_eq (s := { s with active_sb := sb }) hapi hzero
  have hbuf : (alloc_bitmap { s with active_sb := sb }).bitmap_buf =
      (s.pmm.alloc_page (toInt (pages_of sb.bitmap_block_count))).1 := by rw [halloc]
  have hpmm : (alloc_bitmap { s with active_sb := sb }).pmm =
      (s.pmm.alloc_page (toInt (pages_of sb.bitmap_block_count))).2 := by rw [halloc]
  rw [hbuf] at hne ⊢
  refine ⟨hapi, hne, ?_⟩
  rcases Pmm.alloc_page_spec s.pmm (toInt (pages_of sb.bitmap_block_count)) with ⟨hnull, -⟩ | ⟨b, ha⟩
  · exact absurd hnull hne
  · refine ⟨b, ha.addr_eq, fun i => ?_⟩
    unfold taken
    rw [hpmm, ha.marked]
    by_cases hi : b ≤ i ∧ i < b + sb.bitmapPages
    · have hfree := (ha.free (i - b) (by unfold Superblock.bitmapPages at hi; omega)).1
      rw [Nat.add_sub_cancel' hi.1] at hfree
      rw [hfree, decide_eq_true hi, decide_eq_true (show b ≤ i ∧ i < b + (toInt _).toNat from hi)]
      rfl
    · rw [decide_eq_false hi, decide_eq_false (show ¬ (b ≤ i ∧ i < b + (toInt _).toNat) from hi), Bool.false_or,
        Bool.and_not_self]

theorem start_backed (s : Sys) : (start s).Backed := fun hne => absurd rfl hne

theorem mount_backed (hb : h.Backed) (d : Nat) : (h.mount d).2.Backed := by
  by_cases hio : (h.sys.disks d).io (h.sys.disks d).ops = none
  · obtain ⟨hres, hsb, hbuf, -⟩ := mount_accepted_fields hio
    unfold mount
    by_cases hzero : h.sys.bitmap_buf = 0
    · dsimp only
      rw [if_pos ⟨hres, hzero⟩]
      intro hne
      have hne' : (alloc_bitmap { h.sys with active_sb := superblockOf (h.sys.disks d) }).bitmap_buf ≠ 0 :=
        hbuf ▸ hne
      obtain ⟨-, -, b, haddr, hpages⟩ := taken_pages hne' hzero
      refine ⟨b, hbuf.trans haddr, ?_⟩
      dsimp only
      rw [hsb]
      exact hpages
    · dsimp only
      rw [if_neg fun h => hzero h.2]
      rw [alloc_bitmap_some (s := { h.sys with active_sb := superblockOf (h.sys.disks d) }) hzero] at hbuf
      intro hne
      obtain ⟨b, haddr, hpages⟩ := hb hzero
      exact ⟨b, hbuf.trans haddr, hpages⟩
  · obtain ⟨hres, hbuf⟩ := mount_refused_buf hio
    unfold mount
    dsimp only
    rw [if_neg fun h => absurd (hres.symm.trans h.1) (by decide)]
    intro hne
    obtain ⟨b, haddr, hpages⟩ := hb (by rw [← hbuf]; exact hne)
    exact ⟨b, hbuf.trans haddr, hpages⟩

/-- There is room after a mount if and only if the device fits. -/
theorem mount_room_iff (hb : h.Backed) (d : Nat) :
    ((h.mount d).1 = 0 → (h.mount d).2.Room) ↔
      ((h.sys.disks d).io (h.sys.disks d).ops = none → h.Suits d) := by
  by_cases hio : (h.sys.disks d).io (h.sys.disks d).ops = none
  · obtain ⟨hres, hsb, hbuf, -⟩ := mount_accepted_fields hio
    have hres' : (h.mount d).1 = 0 := hres
    have hback := mount_backed hb d
    rw [forall_prop_of_true hres', forall_prop_of_true hio]
    unfold Suits
    by_cases hzero : h.sys.bitmap_buf = 0
    · have hnext : (h.mount d).2 = ⟨(eke_fs_mount h.sys (some d)).2,
          taken h.sys (superblockOf (h.sys.disks d)), superblockOf (h.sys.disks d)⟩ := by
        unfold mount
        dsimp only
        rw [if_pos ⟨hres, hzero⟩, hsb]
      rw [hnext] at hback ⊢
      rw [if_pos hzero]
      by_cases hnull : (alloc_bitmap { h.sys with active_sb := superblockOf (h.sys.disks d) }).bitmap_buf = 0
      · rw [room_null (hbuf.trans hnull)]
        dsimp only
        rw [hsb]
        refine ⟨Or.inl, fun hor => hor.resolve_right fun ⟨hapi, hserved, _⟩ => hserved ?_⟩
        rw [alloc_bitmap_eq (s := { h.sys with active_sb := superblockOf (h.sys.disks d) }) hapi hzero] at hnull
        exact hnull
      · obtain ⟨hapi, hserved, -⟩ := taken_pages hnull hzero
        rw [hback.room_iff fun h0 => hnull (hbuf.symm.trans h0)]
        dsimp only
        rw [hsb]
        refine ⟨fun hcov => Or.inr ⟨hapi, hserved, hcov⟩, ?_⟩
        rintro (⟨hsectors, hblocks⟩ | ⟨-, -, hcov⟩)
        · unfold Superblock.Covers
          rw [hsectors, hblocks]
          omega
        · exact hcov
    · have hnext : (h.mount d).2 = { h with sys := (eke_fs_mount h.sys (some d)).2 } := by
        unfold mount
        dsimp only
        rw [if_neg fun h => hzero h.2]
      rw [alloc_bitmap_some (s := { h.sys with active_sb := superblockOf (h.sys.disks d) }) hzero] at hbuf
      rw [hnext] at hback ⊢
      rw [if_neg hzero, hback.room_iff fun h0 => hzero (hbuf.symm.trans h0)]
      dsimp only
      rw [hsb]
  · have hres : (h.mount d).1 = -1 := (mount_refused_buf hio).1
    rw [hres]
    exact ⟨fun _ h => absurd h hio, fun _ h => absurd h (by decide)⟩

/-! ### Every run of mounts -/

/-- **The bit map stays inside its buffer as long as every device mounted fits it, and no longer.** -/
theorem bitmap_fits (s : Sys) (ds : List Nat) :
    Throughout next (fun h d => (h.mount d).1 = 0 → (h.next d).Room) (start s) ds ↔
      Throughout next (fun h d => (h.sys.disks d).io (h.sys.disks d).ops = none → h.Suits d) (start s) ds := by
  refine Throughout.congr (I := Backed) ?_ ?_ (start_backed s)
  · intro h d hb
    exact mount_room_iff hb d
  · intro h d hb _
    exact mount_backed hb d

/-! ### A small device before a large one -/

/-- The RAM disk of 16 MB as device 0 and a disk of 64 MB as device 1. -/
def twoDrives : Sys := { blank bootPages 32768 with disks := fun d => blankDevice (if d = 0 then 32768 else 131072) }

/-- Two mounts that succeed, the second with a bit map the first one's pages do not hold. -/
theorem bitmap_spills : ¬ Throughout next (fun h d => (h.mount d).1 = 0 → (h.next d).Room) (start twoDrives) [0, 1] := by
  rintro ⟨-, hroom, -⟩
  have hsuits := (mount_room_iff (mount_backed (start_backed twoDrives) 0) 1).mp hroom
  obtain ⟨hres, hsb, hbuf, -⟩ := mount_accepted_fields (s := (start twoDrives).sys) (d := 0) rfl
  have hfirst : superblockOf ((start twoDrives).sys.disks 0) = Superblock.forDevice 32768 :=
    superblockOf_blank (by decide)
  rw [hfirst] at hsb hbuf
  have hnext : ((start twoDrives).mount 0).2.own = Superblock.forDevice 32768 := by
    unfold mount
    dsimp only
    rw [if_pos ⟨hres, rfl⟩]
    exact hsb
  have hsys : ((start twoDrives).mount 0).2.sys = (eke_fs_mount (start twoDrives).sys (some 0)).2 := by
    unfold mount
    dsimp only
    rw [if_pos ⟨hres, rfl⟩]
  have hdisk : ((start twoDrives).mount 0).2.sys.disks 1 = blankDevice 131072 := by
    rw [hsys, mount_other _ (by decide)]
    rfl
  have hne : ((start twoDrives).mount 0).2.sys.bitmap_buf ≠ 0 := by
    rw [hsys, hbuf, alloc_bitmap_buf]
    decide
  unfold Suits at hsuits
  rw [hdisk, if_neg hne, hnext, superblockOf_blank (by decide)] at hsuits
  exact absurd (hsuits rfl).1 (by decide)

end Hosted

end Eke
