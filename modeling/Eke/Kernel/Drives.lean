/-
The active drive and the mounted device.

`gk.current_disk` is the drive the shell talks about, `active_dev` the device the file system
works on.  Registering a module at boot, `swap_blockdev`, `swap_fs` and the `drive` command change
the first and ask for a mount, whose result none of them looks at.  Where that mount is refused
the file system stays with the device it had.
-/
import Eke.Lib.Throughout
import Eke.Fs.Mounting

namespace Eke

/-- A block-device driver: what its `module_init` does and the device it returns, null where there
is none.  Drivers do not reach into the file system. -/
structure BlockModule where
  module_init : Sys → Option Nat × Sys
  keeps : ∀ s, (module_init s).2.active_dev = s.active_dev

/-- `ModuleHeader`, of the two types drives depend on. -/
inductive ModuleHeader
  | blockdev (mod : BlockModule)
  | fs

/-- The fields of `gk` about drives, the names of the devices and what the modules run on. -/
structure Drives where
  /-- `gk.disks[0]`, …, `gk.disks[gk.disk_count - 1]`. -/
  disks : List Nat
  current_disk : Option Nat
  /-- `gk.fs` is set. -/
  fs : Bool
  block_mod_count : Nat
  fs_mod_count : Nat
  name : Nat → Option CStr
  sys : Sys

namespace Drives

/-- `gk.fs->mount(d)`. -/
def mount (gk : Drives) (d : Nat) : Drives := { gk with sys := (eke_fs_mount gk.sys (some d)).2 }

/-- `gk.fs->mount(gk.current_disk)` when there is a current disk. -/
def mount_current (gk : Drives) : Drives :=
  match gk.current_disk with
  | some d => gk.mount d
  | none => gk

def eke_fs_init (gk : Drives) : Drives := { gk with sys := { gk.sys with g_api := true } }.mount_current

/-- The round of `kernel_main` for one module. -/
def register (gk : Drives) : ModuleHeader → Drives
  | .blockdev mod =>
    if gk.block_mod_count < 8 then
      let gk := { gk with block_mod_count := gk.block_mod_count + 1 }
      if gk.disks.length < 8 then
        match mod.module_init gk.sys with
        | (some dev, sys) =>
          { gk with
            sys := sys
            disks := gk.disks ++ [dev]
            current_disk := if gk.current_disk = none then some dev else gk.current_disk }
        | (none, sys) => { gk with sys := sys }
      else gk
    else gk
  | .fs =>
    if gk.fs_mod_count < 8 then
      let gk := { gk with fs_mod_count := gk.fs_mod_count + 1 }
      if gk.fs then gk else { gk.eke_fs_init with fs := true }
    else gk

/-- The disk with a name, the first there is. -/
def named (gk : Drives) (name : CStr) : Option Nat :=
  gk.disks.find? fun d => (gk.name d).any fun n => n.chars == name.chars

def changedrive (gk : Drives) (name : CStr) : Bool × Drives :=
  match gk.named name with
  | some d => (true, { gk with current_disk := some d })
  | none => (false, gk)

def cmd_drive (gk : Drives) : Option CStr → Drives
  | none => gk
  | some args =>
    if args.chars = [] then gk
    else
      let r := gk.changedrive args
      if r.1 ∧ r.2.fs then r.2.mount_current else r.2

def swap_fs (gk : Drives) : Bool × Drives := (true, { gk.eke_fs_init with fs := true }.mount_current)

def swap_blockdev (gk : Drives) (mod : BlockModule) : Bool × Drives :=
  match mod.module_init gk.sys with
  | (none, sys) => (false, { gk with sys := sys })
  | (some new_dev, sys) =>
    let gk := { gk with
      sys := sys
      disks := if new_dev ∉ gk.disks ∧ gk.disks.length < 8 then gk.disks ++ [new_dev] else gk.disks
      current_disk := some new_dev }
    (true, if gk.fs then gk.mount new_dev else gk)

def swap_module (gk : Drives) : ModuleHeader → Bool × Drives
  | .fs => gk.swap_fs
  | .blockdev mod => gk.swap_blockdev mod

inductive Event
  | register (mod : ModuleHeader)
  | drive (args : Option CStr)
  | swap (mod : ModuleHeader)

def next (gk : Drives) : Event → Drives
  | .register mod => gk.register mod
  | .drive args => gk.cmd_drive args
  | .swap mod => (gk.swap_module mod).2

/-- `gk` before the first module, and a file system that has not been mounted. -/
def start (name : Nat → Option CStr) (s : Sys) : Drives where
  disks := []
  current_disk := none
  fs := false
  block_mod_count := 0
  fs_mod_count := 0
  name := name
  sys := { s with active_dev := none }

/-- An active file system works on the current disk. -/
def Aligned (gk : Drives) : Prop := gk.fs = true → gk.sys.active_dev = gk.current_disk

/-- Nothing is mounted before there is a file system. -/
def Idle (gk : Drives) : Prop := gk.fs = false → gk.sys.active_dev = none

/-- A mount leaves the device in use: it was, or its first sector can be read. -/
def Settles (s : Sys) (d : Nat) : Prop := s.active_dev = some d ∨ (s.disks d).io (s.disks d).ops = none

/-- The file system follows the event. -/
def Follows (gk : Drives) : Event → Prop
  | .register (.blockdev mod) =>
    gk.block_mod_count < 8 → gk.disks.length < 8 → (mod.module_init gk.sys).1 ≠ none → gk.current_disk = none →
      gk.fs = false
  | .register .fs => gk.fs_mod_count < 8 → gk.fs = false → ∀ d, gk.current_disk = some d → Settles gk.sys d
  | .drive args =>
    gk.fs = true → ∀ name, args = some name → name.chars ≠ [] → ∀ d, gk.named name = some d → Settles gk.sys d
  | .swap (.blockdev mod) =>
    gk.fs = true → ∀ d, (mod.module_init gk.sys).1 = some d → Settles (mod.module_init gk.sys).2 d
  | .swap .fs =>
    ∀ d, gk.current_disk = some d → Settles gk.sys d ∨ (gk.sys.disks d).io ((gk.sys.disks d).ops + 1) = none

variable {gk : Drives} {s : Sys} {d : Nat}

theorem mount_settles : (eke_fs_mount s (some d)).2.active_dev = some d ↔ Settles s d := by
  rw [mount_active_dev]
  unfold Settles
  by_cases hio : (s.disks d).io (s.disks d).ops = none
  · rw [if_pos hio]
    exact ⟨fun _ => Or.inr hio, fun _ => rfl⟩
  · rw [if_neg hio]
    exact ⟨Or.inl, fun h => h.resolve_right hio⟩

/-! ### One event

For each: nothing is mounted without a file system, and what keeps the two devices the same.
-/

theorem register_blockdev_iff (hal : gk.Aligned) (hidle : gk.Idle) (mod : BlockModule) :
    (gk.register (.blockdev mod)).Idle ∧
      ((gk.register (.blockdev mod)).Aligned ↔ gk.Follows (.register (.blockdev mod))) := by
  have hkeeps := mod.keeps gk.sys
  simp only [register, Follows]
  by_cases hcount : gk.block_mod_count < 8
  case neg =>
    rw [if_neg hcount]
    exact ⟨hidle, fun _ h => absurd h hcount, fun _ => hal⟩
  by_cases hroom : gk.disks.length < 8
  case neg =>
    rw [if_pos hcount, if_neg hroom]
    exact ⟨hidle, fun _ _ h => absurd h hroom, fun _ => hal⟩
  rw [if_pos hcount, if_pos hroom]
  rcases hinit : mod.module_init gk.sys with ⟨_ | dev, sys⟩
  · rw [hinit] at hkeeps
    exact ⟨fun hfs => hkeeps.trans (hidle hfs), fun _ _ _ h => absurd rfl h, fun _ hfs => hkeeps.trans (hal hfs)⟩
  · rw [hinit] at hkeeps
    refine ⟨fun hfs => hkeeps.trans (hidle hfs), ?_⟩
    unfold Aligned
    dsimp only at hkeeps ⊢
    rw [hkeeps]
    by_cases hcur : gk.current_disk = none
    · rw [if_pos hcur]
      constructor
      · intro hafter _ _ _ _
        by_contra hfs
        have hfs' : gk.fs = true := by simpa using hfs
        exact absurd ((hafter hfs').symm.trans ((hal hfs').trans hcur)) (by simp)
      · intro hsafe hfs
        rw [hsafe hcount hroom (by simp) hcur] at hfs
        cases hfs
    · rw [if_neg hcur]
      exact ⟨fun _ _ _ _ h => absurd h hcur, fun _ => hal⟩

/-- The first mount of `eke_fs_init`. -/
theorem init_active (gk : Drives) (hidle : gk.sys.active_dev = none) :
    gk.eke_fs_init.sys.active_dev = gk.current_disk ↔ ∀ d, gk.current_disk = some d → Settles gk.sys d := by
  unfold eke_fs_init mount_current
  cases hcur : gk.current_disk with
  | none => exact ⟨fun _ d h => (by cases h), fun _ => hidle⟩
  | some d =>
      refine mount_settles.trans ⟨?_, fun h => h d rfl⟩
      rintro h e ⟨⟩
      exact h

theorem init_current (gk : Drives) : gk.eke_fs_init.current_disk = gk.current_disk := by
  unfold eke_fs_init mount_current
  dsimp only
  split
  · rfl
  · rfl

theorem register_fs_iff (hal : gk.Aligned) (hidle : gk.Idle) :
    (gk.register .fs).Idle ∧ ((gk.register .fs).Aligned ↔ gk.Follows (.register .fs)) := by
  simp only [register, Follows]
  by_cases hcount : gk.fs_mod_count < 8
  case neg =>
    rw [if_neg hcount]
    exact ⟨hidle, fun _ h => absurd h hcount, fun _ => hal⟩
  by_cases hfs : gk.fs = true
  · rw [if_pos hcount, if_pos hfs]
    exact ⟨hidle, fun _ _ h => absurd hfs (by simp [h]), fun _ => hal⟩
  · have hnone : gk.fs = false := by simpa using hfs
    have hinit := init_active { gk with fs_mod_count := gk.fs_mod_count + 1 } (hidle hnone)
    have hcur := init_current { gk with fs_mod_count := gk.fs_mod_count + 1 }
    rw [if_pos hcount, if_neg hfs]
    refine ⟨fun h => (by cases h), ?_⟩
    unfold Aligned
    dsimp only at hinit hcur ⊢
    rw [hcur, forall_prop_of_true rfl, hinit, forall_prop_of_true hcount, forall_prop_of_true hnone]

theorem cmd_drive_iff (hal : gk.Aligned) (hidle : gk.Idle) (args : Option CStr) :
    (gk.cmd_drive args).Idle ∧ ((gk.cmd_drive args).Aligned ↔ gk.Follows (.drive args)) := by
  simp only [Follows]
  cases args with
  | none => exact ⟨hidle, fun _ _ name h => (by cases h), fun _ => hal⟩
  | some args =>
      simp only [Drives.cmd_drive]
      by_cases hempty : args.chars = []
      · rw [if_pos hempty]
        refine ⟨hidle, fun _ _ name h => ?_, fun _ => hal⟩
        cases h
        exact fun hne => absurd hempty hne
      rw [if_neg hempty]
      unfold changedrive
      cases hnamed : gk.named args with
      | none =>
          refine ⟨hidle, fun _ _ name h _ d hd => ?_, fun _ => hal⟩
          cases h
          rw [hnamed] at hd
          cases hd
      | some d =>
          dsimp only
          by_cases hfs : gk.fs = true
          · rw [if_pos ⟨rfl, hfs⟩]
            refine ⟨fun h => absurd hfs (by rw [show gk.fs = false from h]; simp), ?_⟩
            unfold Aligned mount_current mount
            dsimp only
            rw [forall_prop_of_true hfs, forall_prop_of_true hfs, mount_settles]
            refine ⟨fun h name hname _ e he => ?_, fun h => h args rfl hempty d hnamed⟩
            cases hname
            rw [hnamed] at he
            cases he
            exact h
          · rw [if_neg fun h => hfs h.2]
            exact ⟨hidle, fun _ h => absurd h hfs, fun _ h => absurd h hfs⟩

theorem swap_blockdev_iff (hal : gk.Aligned) (hidle : gk.Idle) (mod : BlockModule) :
    (gk.swap_blockdev mod).2.Idle ∧
      ((gk.swap_blockdev mod).2.Aligned ↔ gk.Follows (.swap (.blockdev mod))) := by
  have hkeeps := mod.keeps gk.sys
  simp only [swap_blockdev, Follows]
  rcases hinit : mod.module_init gk.sys with ⟨_ | dev, sys⟩
  · rw [hinit] at hkeeps
    exact ⟨fun hfs => hkeeps.trans (hidle hfs), fun _ _ d h => (by cases h), fun _ hfs => hkeeps.trans (hal hfs)⟩
  rw [hinit] at hkeeps
  dsimp only at hkeeps ⊢
  by_cases hfs : gk.fs = true
  · rw [if_pos hfs]
    refine ⟨fun h => absurd hfs (by rw [show gk.fs = false from h]; simp), ?_⟩
    unfold Aligned mount
    dsimp only
    rw [forall_prop_of_true hfs, forall_prop_of_true hfs, mount_settles]
    refine ⟨?_, fun h => h dev rfl⟩
    rintro h e ⟨⟩
    exact h
  · rw [if_neg hfs]
    exact ⟨fun h => hkeeps.trans (hidle h), fun _ h => absurd h hfs, fun _ h => absurd h hfs⟩

/-- Two attempts to mount a device. -/
theorem mount_twice_settles : (eke_fs_mount (eke_fs_mount s (some d)).2 (some d)).2.active_dev = some d ↔
    Settles s d ∨ (s.disks d).io ((s.disks d).ops + 1) = none := by
  rw [mount_settles]
  cases hio : (s.disks d).io (s.disks d).ops with
  | none => exact ⟨fun _ => Or.inl (Or.inr hio), fun _ => Or.inl (mount_settles.mpr (Or.inr hio))⟩
  | some k =>
      rw [mount_refused hio]
      unfold Settles
      rw [setDisk_self, hio]
      simp [Sys.setDisk]

theorem swap_fs_iff (hal : gk.Aligned) (hidle : gk.Idle) :
    gk.swap_fs.2.Idle ∧ (gk.swap_fs.2.Aligned ↔ gk.Follows (.swap .fs)) := by
  simp only [swap_fs, Follows]
  cases hcur : gk.current_disk with
  | none =>
      have hnone : gk.sys.active_dev = none := by
        by_cases hfs : gk.fs = true
        · exact (hal hfs).trans hcur
        · exact hidle (by simpa using hfs)
      simp only [eke_fs_init, mount_current, hcur]
      exact ⟨fun h => (by cases h), fun _ d h => (by cases h), fun _ _ => hnone⟩
  | some d =>
      simp only [eke_fs_init, mount_current, hcur, mount]
      refine ⟨fun h => (by cases h), ?_⟩
      unfold Aligned
      dsimp only
      rw [forall_prop_of_true rfl, mount_twice_settles]
      refine ⟨?_, fun h => h d rfl⟩
      rintro h e ⟨⟩
      exact h

theorem next_iff (hal : gk.Aligned) (hidle : gk.Idle) (e : Event) :
    (gk.next e).Idle ∧ ((gk.next e).Aligned ↔ gk.Follows e) := by
  cases e with
  | register mod =>
      cases mod with
      | blockdev mod => exact register_blockdev_iff hal hidle mod
      | fs => exact register_fs_iff hal hidle
  | drive args => exact cmd_drive_iff hal hidle args
  | swap mod =>
      cases mod with
      | blockdev mod => exact swap_blockdev_iff hal hidle mod
      | fs => exact swap_fs_iff hal hidle

/-! ### Every run -/

/-- **The active drive is the mounted device as long as every mount that moves it goes through.** -/
theorem drives_aligned (name : Nat → Option CStr) (s : Sys) (es : List Event) :
    Throughout next (fun gk e => (gk.next e).Aligned) (start name s) es ↔
      Throughout next Follows (start name s) es := by
  refine Throughout.congr (I := fun gk => gk.Aligned ∧ gk.Idle) ?_ ?_ ⟨fun h => (by cases h), fun _ => rfl⟩
  · rintro gk e ⟨hal, hidle⟩
    exact (next_iff hal hidle e).2
  · rintro gk e ⟨hal, hidle⟩ hnext
    exact ⟨hnext, (next_iff hal hidle e).1⟩

/-! ### A drive that cannot be read -/

/-- A driver that finds its device. -/
def driver (d : Nat) : BlockModule := ⟨fun s => (some d, s), fun _ => rfl⟩

/-- A disk no sector of which can be read, and a RAM disk. -/
def deadDisk : Sys :=
  { blank bootPages 32768 with
    disks := fun d => if d = 0 then { blankDevice 131072 with io := fun _ => some 0 } else blankDevice 32768 }

/-- The modules of the kernel in link order, as far as drives go. -/
def bootModules : List Event := [.register (.blockdev (driver 0)), .register (.blockdev (driver 1)), .register .fs]

/-- `ata0` and `ram0`. -/
def bootNames (d : Nat) : Option CStr := if d = 0 then some ⟨[97, 116, 97, 48], by decide⟩ else some ⟨[114, 97, 109, 48], by decide⟩

/-- The file system comes up with the disk as the current one and nothing mounted. -/
theorem drives_apart : ¬ Throughout next (fun gk e => (gk.next e).Aligned) (start bootNames deadDisk) bootModules := by
  rintro ⟨hdisk, hram, hfs, -⟩
  have hidle : (start bootNames deadDisk).Idle := fun _ => rfl
  have hidle₁ := (next_iff (fun h => by cases h) hidle (.register (.blockdev (driver 0)))).1
  have hidle₂ := (next_iff hdisk hidle₁ (.register (.blockdev (driver 1)))).1
  have hfollows := (next_iff hram hidle₂ (.register .fs)).2.mp hfs
  have hsettles : Settles deadDisk 0 := hfollows (show 0 < 8 by decide) rfl 0 rfl
  rcases hsettles with h | h
  · cases h
  · cases h

end Drives

end Eke
