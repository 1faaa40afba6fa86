/-
Code at address 0.

Instructions and jumps can be laid out as bytes and put into a memory with a stack behind them.
A processor in front of such code runs by evaluation.
-/
import Eke.Compiler.Values

namespace Eke

open Gen Store X86

variable {Y : Symbols} {m : Store}

/-- No symbol is referred to. -/
def Symbols.none : Symbols := ⟨fun _ => 0, fun _ => 0, 0, 0⟩

/-- The bytes of an item that stands at `p`. -/
def Item.image (Y : Symbols) (p : Nat) : Item → List Byte
  | .ins i => i.bytes
  | .jump op l => op.opcode ++ leBytes 4 (rel32 (Y.label l) (p + op.opcode.length)).toNat
  | .test op l => op.opcode ++ leBytes 4 (rel32 (Y.label l) (p + op.opcode.length)).toNat
  | _ => []

/-- The item needs nothing but its own bytes. -/
def Item.laid : Item → Bool
  | .call _ => false
  | .lea _ => false
  | .mark _ => false
  | _ => true

def image (Y : Symbols) : Nat → List Item → List Byte
  | _, [] => []
  | p, i :: is => i.image Y p ++ image Y (p + i.size) is

theorem relAt_of_image {op : Op} {p t : Nat} (h : ∀ k (hk : k < (op.opcode ++ leBytes 4
    (rel32 t (p + op.opcode.length)).toNat).length), m (p + k) = (op.opcode ++ leBytes 4
    (rel32 t (p + op.opcode.length)).toNat)[k]) : RelAt m p op t := by
  constructor
  · intro k hk
    rw [h k (by rw [List.length_append]; omega), List.getElem_append_left hk]
  · rw [le_of_leBytes (v := (rel32 t (p + op.opcode.length)).toNat)]
    · exact Nat.mod_eq_of_lt (BitVec.isLt _)
    · intro k hk
      rw [Nat.add_assoc, h (op.opcode.length + k) (by rw [List.length_append]; omega),
        List.getElem_append_right (Nat.le_add_right _ _)]
      simp

theorem item_image {i : Item} {p : Nat} (hi : i.laid = true) :
    (i.image Y p).length = i.size ∧
      ((∀ k (hk : k < (i.image Y p).length), m (p + k) = (i.image Y p)[k]) → i.assembled m Y p) := by
  cases i with
  | ins i => exact ⟨rfl, id⟩
  | jump op l => exact ⟨by simp [Item.image, Item.size], relAt_of_image⟩
  | test op l => exact ⟨by simp [Item.image, Item.size], relAt_of_image⟩
  | call f => cases hi
  | lea s => cases hi
  | mark l => cases hi
  | _ => exact ⟨rfl, fun _ => trivial⟩

theorem image_assembled : ∀ {xs : List Item} {p : Nat}, (∀ i ∈ xs, i.laid = true) →
    (image Y p xs).length = size xs ∧
      ((∀ k (hk : k < (image Y p xs).length), m (p + k) = (image Y p xs)[k]) → Assembled m Y p xs) := by
  intro xs
  induction xs with
  | nil => intro p _; exact ⟨rfl, fun _ => trivial⟩
  | cons i xs ih =>
      intro p h
      obtain ⟨hlen, hat⟩ := item_image (m := m) (Y := Y) (p := p) (h i (List.mem_cons_self ..))
      obtain ⟨hlen', hat'⟩ := ih (p := p + i.size) fun j hj => h j (List.mem_cons_of_mem _ hj)
      refine ⟨by rw [image, List.length_append, hlen, hlen', size_cons], fun hm => ⟨?_, ?_⟩⟩
      · refine hat fun k hk => ?_
        rw [hm k (by rw [image, List.length_append]; omega)]
        simp only [image]
        rw [List.getElem_append_left hk]
      · refine hat' fun k hk => ?_
        rw [Nat.add_assoc, hm (i.size + k) (by rw [image, List.length_append]; omega)]
        simp only [image]
        rw [List.getElem_append_right (by omega)]
        simp [hlen]

/-- The memory with code at address 0. -/
def imageStore (Y : Symbols) (xs : List Item) : Store := fun a => (image Y 0 xs).getD a 0

theorem image_code {xs : List Item} (h : ∀ i ∈ xs, i.laid = true) :
    Code (imageStore Y xs) (size xs) Y 0 xs := by
  obtain ⟨hlen, hat⟩ := image_assembled (m := imageStore Y xs) (Y := Y) (p := 0) h
  refine ⟨hat fun k hk => ?_, by rw [Nat.zero_add]⟩
  unfold imageStore
  rw [Nat.zero_add, List.getD_eq_getElem?_getD, List.getElem?_eq_getElem hk]
  rfl

theorem image_small {xs : List Item} (h : size xs < 65536) : size xs < 2 ^ 31 := by omega

theorem image_apart {xs : List Item} (h : size xs < 65536) :
    0 + size xs ≤ 65536 ∨ 131072 ≤ 0 := by omega

theorem image_top : 131072 < 2 ^ 64 := by decide

theorem image_margin : 16 ≤ 64 := by decide

/-- The code at address 0, and a stack behind it. -/
def imageSetting (Y : Symbols) (xs : List Item) (h : size xs < 65536) :
    Setting (imageStore Y xs) (size xs) where
  base := 0
  lo := 65536
  hi := 131072
  room := 64
  small := image_small h
  apart := image_apart h
  top := image_top
  margin := image_margin

/-- A processor in front of the code, with the memory `m`. -/
def imageCpu (m : Store) : Cpu :=
  { rax := 0, rbx := 0, rcx := 0, rdx := 0, rsi := 0, rdi := 0, rbp := 131000, rsp := 130000
    r8 := 0, r9 := 0, rip := 0, zf := false, sf := false, of := false, mem := m }

/-- The frame of a function with two local variables and no parameters. -/
def imageFrame (m : Store) : Frame := ⟨8, 0, 131000, 130000, m, by decide⟩

theorem image_inside {xs : List Item} (h : size xs < 65536) {m : Store}
    (hm : ∀ x, x < 65536 → m x = imageStore Y xs x) :
    Inside (imageSetting Y xs h) (imageFrame m) 0 130000 (imageCpu m) := by
  refine ⟨⟨⟨fun x hx => ?_, ?_⟩, rfl, rfl, rfl⟩, ⟨(by decide : 8 % 4 = 0),
    (by decide : 8 < 2 ^ 31), (by decide : 0 ≤ 2 ^ 27), (by decide : 65536 + 8 + 8 ≤ 131000),
    (by decide : 131000 + 16 + 8 * 0 ≤ 131072), (by decide : 130000 ≤ 131000)⟩, Nat.le_refl _, .refl⟩
  · have hbase : (imageSetting Y xs h).base = 0 := rfl
    rw [hbase, Nat.zero_add]
    exact hm x (by omega)
  · have hbase : (imageSetting Y xs h).base = 0 := rfl
    rw [hbase]
    omega

end Eke
