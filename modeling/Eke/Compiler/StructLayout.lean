/-
The layout of structs.

A member of a struct type has the bytes of that struct for each of its elements, whichever way the text
names it.  The parser counts them for `struct S` only: where the name stands alone, as that of a typedef
does, it counts four.  The main result says for which definitions of a text the members lie apart all
the same, and inside their struct.
-/
import Eke.Compiler.StructMembers
import Eke.Compiler.LocalVariables
import Mathlib.Data.List.Find

namespace Eke

/-- The name of the type of a member that is no pointer. -/
def Member.typeName (m : Member) : Option Name :=
  if m.isptr ≠ 0 then none
  else if m.type_tok.type = K_STRUCT then some m.struct_name
  else if m.type_tok.type = T_IDENTIFIER then some m.type_tok.name
  else none

namespace Parser

open Prog

/-- The struct that is the type of a member. -/
def memberStruct (s : Parser) (m : Member) : Option Nat := m.typeName.bind (structNamed s)

/-- The bytes of an element of a member, by its type. -/
def unit (s : Parser) (m : Member) : Int :=
  match memberStruct s m with
  | some i => (s.struct_table i).size
  | none => 4

/-- The member number `i` of the struct that was defined last stands at an address, by its type. -/
def StandsAt (s : Parser) (i : Nat) (m : Member) (a : Int) : Prop :=
  (lastStruct s).offset i ≤ a ∧ a < (lastStruct s).offset i + unit s m * m.elements

/-- The members lie apart, at multiples of four, in the bytes of the struct. -/
structure LaidOut (s : Parser) (d : Definition) : Prop where
  size : 0 ≤ (lastStruct s).size
  aligned : ∀ i < d.members.length, 4 ∣ (lastStruct s).offset i
  disjoint : ∀ i j m m', i < j → d.members[i]? = some m → d.members[j]? = some m' →
    ∀ a, StandsAt s i m a → ¬ StandsAt s j m' a
  inside : ∀ i m, d.members[i]? = some m → ∀ a, StandsAt s i m a → 0 ≤ a ∧ a < (lastStruct s).size

/-- A member of the type that is being defined. -/
def IsOwn (s : Parser) (d : Definition) (m : Member) : Prop :=
  ∃ w, m.typeName = some w ∧ d.name = some w ∧ structNamed s w = none

/-- Definitions in which a struct that is named without `struct` has at most four bytes, no struct has
itself for a member, and everything together is less than 2 ^ 31 bytes.  Members without elements do not
count; and a struct may have four bytes for itself if they are all it has. -/
structure Fitting (s : Parser) (d : Definition) : Prop where
  bare : ∀ m ∈ d.members, m.type_tok.type = T_IDENTIFIER → ∀ i, memberStruct s m = some i →
    (s.struct_table i).size ≤ 4 ∨ m.elements = 0
  own : ∀ m ∈ d.members, IsOwn s d m →
    m.elements = 0 ∨ m.type_tok.type = T_IDENTIFIER ∧ (d.members.map Member.elements).sum = 1
  room : (d.members.map fun m => max 4 (unit s m) * m.elements).sum < 2 ^ 31

/-- No struct among the members is empty. -/
def Solid (s : Parser) (d : Definition) : Prop := ∀ m ∈ d.members, 4 ≤ unit s m

/-- The structs of the text so far have sizes, and those behind them have not been used. -/
structure Sound (s : Parser) : Prop where
  first : -1 ≤ s.old
  old : s.old ≤ s.st_count
  sizes : ∀ i : Nat, s.old < i → i ≤ s.st_count → 0 ≤ (s.struct_table i).size ∧ 4 ∣ (s.struct_table i).size
  spare : ∀ i : Nat, s.st_count < i → (s.struct_table i).size = 0

variable {α : Type} {r : Calls} {s t u v : Parser} {d : Definition} {m : Member} {ms : List Member}

theorem Sound.st_count (hs : Sound s) : -1 ≤ s.st_count := Int.le_trans hs.first hs.old

/-! ### Names before and after a definition -/

theorem structNamed_some {w : Name} {i : Nat} (h : structNamed s w = some i) :
    s.old < i ∧ (i : Int) ≤ s.st_count := by
  have hi := List.mem_range.mp (List.mem_of_find?_eq_some h)
  have hname := List.find?_some h
  have hold := (of_decide_eq_true hname).1
  exact ⟨hold, by omega⟩

theorem Next.structNamed {name : Option Name} (h : Next name s t) (hs : Sound s) (w : Name) :
    structNamed t w =
      (structNamed s w).or (if name = some w then some (s.st_count + 1).toNat else none) := by
  have hcount := hs.st_count
  have hold := hs.old
  have hrange : (t.st_count + 1).toNat = (s.st_count + 1).toNat + 1 := by
    rw [h.st_count]
    omega
  have hbefore : (List.range (s.st_count + 1).toNat).find? (hasName t w) =
      (List.range (s.st_count + 1).toNat).find? (hasName s w) := by
    refine List.find?_congr fun i hi => ?_
    unfold hasName
    rw [h.old, h.others i (Nat.ne_of_lt (List.mem_range.mp hi))]
  have hlast : hasName t w (s.st_count + 1).toNat = decide (name = some w) := by
    unfold hasName
    rw [h.old, h.name]
    have hlt : s.old < ((s.st_count + 1).toNat : Int) := by omega
    simp only [hlt, true_and]
  unfold Parser.structNamed
  rw [hrange, List.range_succ, List.find?_append, hbefore]
  congr 1
  rw [List.find?_singleton, hlast]
  by_cases hname : name = some w
  · rw [if_pos hname]
    simp [hname]
  · rw [if_neg hname]
    simp [hname]

theorem Next.last {name : Option Name} (h : Next name s t) :
    lastStruct t = t.struct_table (s.st_count + 1).toNat := by
  unfold lastStruct
  rw [h.st_count]

/-- An earlier struct is left as it is. -/
theorem Next.earlier {name : Option Name} (h : Next name s t) (hs : Sound s) {w : Name} {i : Nat}
    (hi : Parser.structNamed s w = some i) :
    Parser.structNamed t w = some i ∧ t.struct_table i = s.struct_table i := by
  refine ⟨by rw [h.structNamed hs, hi]; rfl, h.others i ?_⟩
  have hle := (structNamed_some hi).2
  have hcount := hs.st_count
  omega

theorem Next.newest {name : Option Name} (h : Next name s t) (hs : Sound s) {w : Name}
    (hnone : Parser.structNamed s w = none) (hname : name = some w) :
    Parser.structNamed t w = some (s.st_count + 1).toNat := by
  rw [h.structNamed hs, hnone, if_pos hname]
  rfl

theorem Next.unknown {name : Option Name} (h : Next name s t) (hs : Sound s) {w : Name}
    (hnone : Parser.structNamed s w = none) (hname : name ≠ some w) : Parser.structNamed t w = none := by
  rw [h.structNamed hs, hnone, if_neg hname]
  rfl

/-! ### The types of members -/

theorem typeName_some {w : Name} (h : m.typeName = some w) :
    m.isptr = 0 ∧ (m.type_tok.type = K_STRUCT ∧ m.struct_name = w ∨
      m.type_tok.type = T_IDENTIFIER ∧ m.type_tok.name = w) := by
  unfold Member.typeName at h
  split at h
  · cases h
  rename_i hptr
  refine ⟨not_not.mp hptr, ?_⟩
  split at h
  · rename_i htype
    exact .inl ⟨htype, Option.some.inj h⟩
  split at h
  · rename_i htype
    exact .inr ⟨htype, Option.some.inj h⟩
  · cases h

theorem unit_some {i : Nat} (h : memberStruct s m = some i) : unit s m = (s.struct_table i).size := by
  unfold unit
  rw [h]

theorem unit_none (h : memberStruct s m = none) : unit s m = 4 := by
  unfold unit
  rw [h]

theorem counted_four (h : m.isptr = 0 → m.type_tok.type ≠ K_STRUCT) : counted s m = 4 :=
  if_neg fun hall => h hall.1 hall.2

theorem counted_struct {i : Nat} (hptr : m.isptr = 0) (htype : m.type_tok.type = K_STRUCT)
    (hi : structNamed s m.struct_name = some i) : counted s m = (s.struct_table i).size := by
  unfold counted
  rw [if_pos ⟨hptr, htype⟩, hi]

/-- The type of a member, with the bytes of an element in front of the definition and behind it, and those
the parser counts. -/
inductive Typed (d : Definition) (s v t : Parser) (m : Member) : Prop
  | scalar (hs : memberStruct s m = none) (hown : ¬ IsOwn s d m) (ht : unit t m = 4) (hv : counted v m = 4)
  | named (i : Nat) (htype : m.type_tok.type = K_STRUCT) (hs : memberStruct s m = some i)
      (ht : unit t m = unit s m) (hv : counted v m = unit s m)
  | bare (i : Nat) (htype : m.type_tok.type = T_IDENTIFIER) (hs : memberStruct s m = some i)
      (ht : unit t m = unit s m) (hv : counted v m = 4)
  | own (htype : m.type_tok.type = K_STRUCT) (hs : memberStruct s m = none) (hown : IsOwn s d m)
      (ht : unit t m = (lastStruct t).size) (hv : counted v m = (lastStruct v).size)
  | bareOwn (htype : m.type_tok.type = T_IDENTIFIER) (hs : memberStruct s m = none) (hown : IsOwn s d m)
      (ht : unit t m = (lastStruct t).size) (hv : counted v m = 4)

theorem memberStruct_some {w : Name} (h : m.typeName = some w) : memberStruct s m = structNamed s w := by
  unfold memberStruct
  rw [h]
  rfl

theorem Defined.typed (h : Defined d s v t) (hs : Sound s) (hm : m ∈ d.members) : Typed d s v t m := by
  cases hname : m.typeName with
  | none =>
      have hnone : ∀ u : Parser, memberStruct u m = none := by
        intro u
        unfold memberStruct
        rw [hname]
        rfl
      refine .scalar (hnone s) ?_ (unit_none (hnone t)) (counted_four fun hptr htype => ?_)
      · rintro ⟨w, hw, -⟩
        rw [hname] at hw
        cases hw
      · unfold Member.typeName at hname
        rw [if_neg (not_not.mpr hptr), if_pos htype] at hname
        cases hname
  | some w =>
      obtain ⟨hptr, hkind⟩ := typeName_some hname
      have hstruct := fun u : Parser => memberStruct_some (s := u) hname
      cases hfound : structNamed s w with
      | some i =>
          obtain ⟨ht, hsame⟩ := h.outer.earlier hs hfound
          obtain ⟨hv, hsame'⟩ := h.inner.earlier hs hfound
          have hunit : unit t m = unit s m := by
            rw [unit_some ((hstruct t).trans ht), unit_some ((hstruct s).trans hfound), hsame]
          rcases hkind with ⟨htype, rfl⟩ | ⟨htype, rfl⟩
          · refine .named i htype ((hstruct s).trans hfound) hunit ?_
            rw [counted_struct hptr htype hv, hsame', unit_some ((hstruct s).trans hfound)]
          · refine .bare i htype ((hstruct s).trans hfound) hunit (counted_four fun _ => ?_)
            rw [htype]
            decide
      | none =>
          by_cases hown : d.name = some w
          · have ht := h.outer.newest hs hfound hown
            have hv := h.inner.newest hs hfound hown
            have hunit : unit t m = (lastStruct t).size := by
              rw [unit_some ((hstruct t).trans ht), h.outer.last]
            rcases hkind with ⟨htype, rfl⟩ | ⟨htype, rfl⟩
            · refine .own htype ((hstruct s).trans hfound) ⟨_, hname, hown, hfound⟩ hunit ?_
              rw [counted_struct hptr htype hv, h.inner.last]
            · refine .bareOwn htype ((hstruct s).trans hfound) ⟨_, hname, hown, hfound⟩ hunit
                (counted_four fun _ => ?_)
              rw [htype]
              decide
          · have ht := h.outer.unknown hs hfound hown
            have hv := h.inner.unknown hs hfound hown
            refine .scalar ((hstruct s).trans hfound) ?_ (unit_none ((hstruct t).trans ht)) ?_
            · rintro ⟨w', hw', hname', -⟩
              rw [hname] at hw'
              cases hw'
              exact hown hname'
            · rcases hkind with ⟨htype, rfl⟩ | ⟨htype, rfl⟩
              · exact absurd hv (h.known m hm hptr htype)
              · refine counted_four fun _ => ?_
                rw [htype]
                decide

/-! ### Slots -/

theorem slots_cons (used aside : Member → Int) (m : Member) (ms : List Member) (offset : Nat → Int) :
    slots used aside (m :: ms) offset =
      ⟨offset 0, used m, aside m⟩ :: slots used aside ms fun i => offset (i + 1) :=
  List.mapIdx_cons

theorem slots_asides (used aside : Member → Int) : ∀ (ms : List Member) (offset : Nat → Int),
    (slots used aside ms offset).map Slot.aside = ms.map aside := by
  intro ms
  induction ms with
  | nil => exact fun _ => rfl
  | cons m ms ih =>
      intro offset
      rw [slots_cons, List.map_cons, ih, List.map_cons]

theorem slots_useds (used aside : Member → Int) : ∀ (ms : List Member) (offset : Nat → Int),
    (slots used aside ms offset).map Slot.used = ms.map used := by
  intro ms
  induction ms with
  | nil => exact fun _ => rfl
  | cons m ms ih =>
      intro offset
      rw [slots_cons, List.map_cons, ih, List.map_cons]

theorem mem_slots {used aside : Member → Int} {offset : Nat → Int} {x : Slot}
    (hx : x ∈ slots used aside ms offset) : ∃ m ∈ ms, x.used = used m ∧ x.aside = aside m := by
  obtain ⟨i, hi, rfl⟩ := List.mem_mapIdx.mp hx
  exact ⟨ms[i], List.getElem_mem hi, rfl, rfl⟩

/-- Slots that lie apart, by the members. -/
theorem parted_slots {used aside : Member → Int} {offset : Nat → Int} {y : Int} :
    Parted 0 y (slots used aside ms offset) ↔
      (∀ i j m m', i < j → ms[i]? = some m → ms[j]? = some m' → ∀ a,
        offset i ≤ a ∧ a < offset i + used m → ¬ (offset j ≤ a ∧ a < offset j + used m')) ∧
      ∀ i m, ms[i]? = some m → ∀ a, offset i ≤ a ∧ a < offset i + used m → 0 ≤ a ∧ a < y := by
  constructor
  · intro h
    have hdisj := List.pairwise_iff_getElem.mp h.disjoint
    refine ⟨fun i j m m' hij hi hj => ?_, fun i m hi => ?_⟩
    · obtain ⟨hi', rfl⟩ := List.getElem?_eq_some_iff.mp hi
      obtain ⟨hj', rfl⟩ := List.getElem?_eq_some_iff.mp hj
      have hpair := hdisj i j (by simpa [slots] using hi') (by simpa [slots] using hj') hij
      unfold slots at hpair
      rw [List.getElem_mapIdx, List.getElem_mapIdx] at hpair
      exact hpair
    · obtain ⟨hi', rfl⟩ := List.getElem?_eq_some_iff.mp hi
      exact h.inside _ (List.mem_mapIdx.mpr ⟨i, hi', rfl⟩)
  · rintro ⟨hdisj, hin⟩
    refine ⟨List.pairwise_iff_getElem.mpr fun i j hi hj hij => ?_, fun x hx => ?_⟩
    · unfold slots at hi hj ⊢
      rw [List.getElem_mapIdx, List.getElem_mapIdx]
      rw [List.length_mapIdx] at hi hj
      exact hdisj i j _ _ hij (List.getElem?_eq_getElem hi) (List.getElem?_eq_getElem hj)
    · obtain ⟨i, hi, rfl⟩ := List.mem_mapIdx.mp hx
      exact hin i _ (List.getElem?_eq_getElem hi)

/-- The bytes set aside matter up to the wrap of the counter only. -/
theorem laid_asides {used a b : Member → Int} : ∀ {ms : List Member} {offset : Nat → Int} {x y : Int},
    Laid int32 x (slots used a ms offset) y → (∀ m ∈ ms, ∀ z, int32 (z + a m) = int32 (z + b m)) →
    Laid int32 x (slots used b ms offset) y := by
  intro ms
  induction ms with
  | nil => exact fun h _ => h
  | cons m ms ih =>
      intro offset x y h hab
      rw [slots_cons] at h ⊢
      cases h with
      | cons htail =>
          have hm := hab m (List.mem_cons_self ..) (offset 0)
          have hrest := ih htail fun m' hm' => hab m' (List.mem_cons_of_mem _ hm')
          refine Laid.cons (s := ⟨offset 0, used m, b m⟩) ?_
          show Laid int32 (int32 (offset 0 + b m)) _ y
          rw [← hm]
          exact hrest

/-- A multiple of four is aligned. -/
theorem int32_align {z : Int} (h : 4 ∣ z) (x : Int) : int32 (x + align4 z) = int32 (x + z) := by
  obtain ⟨p, hp⟩ := int32_eq (z + 3)
  have halign : align4 z = z + 2 ^ 32 * p := by
    unfold align4
    rw [hp]
    omega
  rw [halign, ← add_assoc, int32_add]

theorem int32_four {z : Int} (h : 4 ∣ z) : 4 ∣ int32 z := by
  obtain ⟨p, hp⟩ := int32_eq z
  rw [hp]
  omega

/-! ### One definition -/

/-- The bytes counted for the elements of a member. -/
def countedAll (s : Parser) (m : Member) : Int := counted s m * m.elements

/-- The bytes counted for an element are a multiple of four, and no more than a member of that type has, or
four; there are none for the struct that is being defined. -/
structure Counted (s v : Parser) (m : Member) : Prop where
  four : 4 ∣ counted v m
  nonneg : 0 ≤ counted v m
  le : counted v m ≤ max 4 (unit s m)

theorem Defined.empty (h : Defined d s v t) (hs : Sound s) : (lastStruct v).size = 0 := by
  have hcount := hs.st_count
  rw [h.size]
  exact hs.spare _ (by omega)

theorem unit_sound (hs : Sound s) {i : Nat} (hi : memberStruct s m = some i) :
    0 ≤ unit s m ∧ 4 ∣ unit s m := by
  obtain ⟨w, -, hw⟩ := Option.bind_eq_some_iff.mp hi
  obtain ⟨hold, hle⟩ := structNamed_some hw
  rw [unit_some hi]
  exact hs.sizes i hold hle

theorem counted_of_four (hv : counted v m = 4) : Counted s v m :=
  ⟨by rw [hv], by rw [hv]; decide, by rw [hv]; exact le_max_left _ _⟩

theorem Defined.counted (h : Defined d s v t) (hs : Sound s) (hm : m ∈ d.members) : Counted s v m := by
  cases h.typed hs hm with
  | scalar _ _ _ hv => exact counted_of_four hv
  | named i _ hi _ hv =>
      obtain ⟨hnonneg, hfour⟩ := unit_sound hs hi
      exact ⟨by rw [hv]; exact hfour, by rw [hv]; exact hnonneg, by rw [hv]; exact le_max_right _ _⟩
  | bare i _ _ _ hv => exact counted_of_four hv
  | own _ _ _ _ hv =>
      rw [h.empty hs] at hv
      exact ⟨by rw [hv]; decide, by rw [hv], by rw [hv]; exact le_max_of_le_left (by decide)⟩
  | bareOwn _ _ _ _ hv => exact counted_of_four hv

/-- The members are laid with the bytes counted for them. -/
theorem Defined.laid_counted (h : Defined d s v t) (hs : Sound s) (used : Member → Int) :
    Laid int32 0 (slots used (countedAll v) d.members (lastStruct t).offset) (lastStruct t).size := by
  refine laid_asides (h.laid used) fun m hm z => int32_align ?_ z
  exact Dvd.dvd.mul_right (h.counted hs hm).four _

theorem Defined.aligned (h : Defined d s v t) (hs : Sound s) :
    (∀ i < d.members.length, 4 ∣ (lastStruct t).offset i) ∧ 4 ∣ (lastStruct t).size := by
  have hlaid := h.laid_counted hs fun _ => 0
  have hplaces := hlaid.places (Q := fun z => 4 ∣ z) (Int.dvd_zero 4) fun x hx hfour => by
    obtain ⟨m, hm, -, haside⟩ := mem_slots hx
    refine int32_four (Int.dvd_add hfour ?_)
    rw [haside]
    exact Dvd.dvd.mul_right (h.counted hs hm).four _
  refine ⟨fun i hi => ?_, hplaces.2⟩
  exact hplaces.1 _ (List.mem_mapIdx.mpr ⟨i, hi, rfl⟩)

theorem Defined.asides_nonneg (h : Defined d s v t) (hs : Sound s) (used : Member → Int) :
    ∀ x ∈ slots used (countedAll v) d.members (lastStruct t).offset, 0 ≤ x.aside := by
  intro x hx
  obtain ⟨m, hm, -, haside⟩ := mem_slots hx
  rw [haside]
  exact Int.mul_nonneg (h.counted hs hm).nonneg (Int.natCast_nonneg _)

/-- If all members together have one element, they have the bytes of the member that has it. -/
theorem sum_one (f : Member → Int) : ∀ {ms : List Member}, m ∈ ms → m.elements ≠ 0 →
    (ms.map Member.elements).sum = 1 → (ms.map fun m => f m * m.elements).sum = f m := by
  intro ms
  induction ms with
  | nil => exact fun hm => absurd hm List.not_mem_nil
  | cons a ms ih =>
      intro hm hne hone
      rw [List.map_cons, List.sum_cons] at hone ⊢
      have hle : ∀ b ∈ ms, b.elements ≤ (ms.map Member.elements).sum :=
        fun b hb => List.le_sum_of_mem (List.mem_map_of_mem hb)
      by_cases ha : a.elements = 0
      · rcases List.mem_cons.mp hm with rfl | hm
        · exact absurd ha hne
        · rw [ha, ih hm hne (by omega)]
          omega
      · have hzero : (ms.map fun m => f m * m.elements).sum = 0 := by
          refine List.sum_eq_zero fun x hx => ?_
          obtain ⟨b, hb, rfl⟩ := List.mem_map.mp hx
          have hb := hle b hb
          rw [show b.elements = 0 by omega]
          exact Int.mul_zero _
        rcases List.mem_cons.mp hm with rfl | hm
        · rw [hzero, show m.elements = 1 by omega]
          omega
        · have hm := hle m hm
          omega

theorem ident_ne : T_IDENTIFIER ≠ K_STRUCT := by decide

/-- In a definition that fits, the size of the struct is what is counted for its members. -/
theorem Fitting.unwrapped (h : Defined d s v t) (hs : Sound s) (hfits : Fitting s d) (used : Member → Int) :
    Laid id 0 (slots used (countedAll v) d.members (lastStruct t).offset) (lastStruct t).size := by
  have hsum : (d.members.map (countedAll v)).sum ≤
      (d.members.map fun m => max 4 (unit s m) * m.elements).sum :=
    List.sum_le_sum fun m hm => Int.mul_le_mul_of_nonneg_right (h.counted hs hm).le (Int.natCast_nonneg _)
  have hroom := hfits.room
  have hnonneg := h.asides_nonneg hs used
  refine (h.laid_counted hs used).unwrapped (fun z => int32_same) (Int.le_refl 0) hnonneg ?_
  rw [slots_asides]
  omega

/-- In a definition that fits, the bytes counted for a member are all it has. -/
theorem Fitting.used_le (h : Defined d s v t) (hs : Sound s) (hfits : Fitting s d) (hm : m ∈ d.members) :
    unit t m * m.elements ≤ countedAll v m := by
  unfold countedAll
  cases h.typed hs hm with
  | scalar _ _ ht hv => rw [ht, hv]
  | named i _ _ ht hv => rw [ht, hv]
  | bare i htype hi ht hv =>
      rw [ht, hv, unit_some hi]
      rcases hfits.bare m hm htype i hi with hle | hnone
      · exact Int.mul_le_mul_of_nonneg_right hle (Int.natCast_nonneg _)
      · rw [hnone]
        simp
  | own htype _ hown _ _ =>
      rcases hfits.own m hm hown with hnone | ⟨hident, -⟩
      · rw [hnone]
        simp
      · exact absurd (hident.symm.trans htype) ident_ne
  | bareOwn htype _ hown ht hv =>
      by_cases hnone : m.elements = 0
      · rw [hnone]
        simp
      · obtain ⟨-, hone⟩ := (hfits.own m hm hown).resolve_left hnone
        have hend := (hfits.unwrapped h hs fun _ => 0).end_eq
        rw [slots_asides, Int.zero_add] at hend
        unfold countedAll at hend
        rw [sum_one (counted v) hm hnone hone] at hend
        rw [ht, hend]

/-- The members of a definition that fits lie apart in their struct. -/
theorem Fitting.laidOut (h : Defined d s v t) (hs : Sound s) (hfits : Fitting s d) : LaidOut t d := by
  have hlaid := hfits.unwrapped h hs fun m => unit t m * m.elements
  have hnonneg := h.asides_nonneg hs fun m => unit t m * m.elements
  have hparted := hlaid.parted hnonneg fun x hx => by
    obtain ⟨m, hm, hused, haside⟩ := mem_slots hx
    rw [hused, haside]
    exact hfits.used_le h hs hm
  obtain ⟨hdisj, hin⟩ := parted_slots.mp hparted
  have hend := hlaid.end_eq
  have hsum := asides_nonneg hnonneg
  exact ⟨by omega, (h.aligned hs).1, hdisj, hin⟩

/-- If no struct among the members is empty, no more is counted for an element than it has. -/
theorem Solid.counted_le (h : Defined d s v t) (hs : Sound s) (hsolid : Solid t d) (hm : m ∈ d.members) :
    counted v m ≤ unit t m := by
  have hfour := hsolid m hm
  cases h.typed hs hm with
  | scalar _ _ ht hv => rw [ht, hv]
  | named _ _ _ ht hv => rw [ht, hv]
  | bare _ _ _ _ hv => rwa [hv]
  | own _ _ _ _ hv =>
      rw [hv, h.empty hs]
      omega
  | bareOwn _ _ _ _ hv => rwa [hv]

/-- If the members lie apart, everything they have is counted and together less than 2 ^ 31 bytes. -/
theorem LaidOut.tight (h : Defined d s v t) (hs : Sound s) (hsolid : Solid t d) (hout : LaidOut t d) :
    (d.members.map fun m => unit t m * m.elements).sum < 2 ^ 31 ∧
      (d.members.map fun m => unit t m * m.elements).sum ≤ (lastStruct t).size ∧
      ∀ m ∈ d.members, unit t m * m.elements = countedAll v m := by
  have hparted : Parted 0 (lastStruct t).size
      (slots (fun m => unit t m * m.elements) (countedAll v) d.members (lastStruct t).offset) :=
    parted_slots.mpr ⟨hout.disjoint, hout.inside⟩
  obtain ⟨hroom, hsame⟩ := (h.laid_counted hs _).tight (fun z => int32_same) int32_lt (by decide)
    (h.asides_nonneg hs _) (fun x hx => by
      obtain ⟨m, hm, hused, haside⟩ := mem_slots hx
      rw [hused, haside]
      exact Int.mul_le_mul_of_nonneg_right (hsolid.counted_le h hs hm) (Int.natCast_nonneg _)) hparted
  have hle := hparted.used_le hout.size
  rw [slots_useds] at hroom hle
  refine ⟨hroom, by omega, fun m hm => ?_⟩
  obtain ⟨i, hi, rfl⟩ := List.getElem_of_mem hm
  exact hsame _ (List.mem_mapIdx.mpr ⟨i, hi, rfl⟩)

/-- A struct that has room for four bytes an element, and four bytes in all, has one element. -/
theorem one_element (hfour : ∀ m ∈ ms, 4 ≤ unit t m)
    (hsum : (ms.map fun m => unit t m * m.elements).sum ≤ 4) (hm : m ∈ ms) (hne : m.elements ≠ 0) :
    (ms.map Member.elements).sum = 1 := by
  have hle : ((ms.map Member.elements).sum : Int) * 4 ≤ (ms.map fun m => unit t m * m.elements).sum := by
    clear hsum hm
    induction ms with
    | nil => exact Int.le_refl 0
    | cons a ms ih =>
        have ha := Int.mul_le_mul_of_nonneg_right (hfour a (List.mem_cons_self ..))
          (Int.natCast_nonneg a.elements)
        have hrest := ih fun b hb => hfour b (List.mem_cons_of_mem _ hb)
        rw [List.map_cons, List.sum_cons, List.map_cons, List.sum_cons, Nat.cast_add]
        omega
  have hpos : m.elements ≤ (ms.map Member.elements).sum := List.le_sum_of_mem (List.mem_map_of_mem hm)
  omega

/-- The members of a definition lie apart in their struct only if it fits, unless a struct among them is
empty. -/
theorem LaidOut.fits (h : Defined d s v t) (hs : Sound s) (hsolid : Solid t d) (hout : LaidOut t d) :
    Fitting s d := by
  obtain ⟨hroom, hsize, hsame⟩ := hout.tight h hs hsolid
  refine ⟨fun m hm htype i hi => ?_, fun m hm hown => ?_,
    lt_of_le_of_lt (List.sum_le_sum fun m hm => ?_) hroom⟩
  · have hbytes := hsame m hm
    unfold countedAll at hbytes
    cases h.typed hs hm with
    | scalar hnone _ _ _ =>
        rw [hnone] at hi
        cases hi
    | named _ hstruct _ _ _ => exact absurd (htype.symm.trans hstruct) ident_ne
    | bare _ _ _ ht hv =>
        rw [ht, hv, unit_some hi] at hbytes
        by_cases hne : m.elements = 0
        · exact .inr hne
        · exact .inl (Int.le_of_eq (Int.eq_of_mul_eq_mul_right (by omega) hbytes))
    | own hstruct _ _ _ _ => exact absurd (htype.symm.trans hstruct) ident_ne
    | bareOwn _ hnone _ _ _ =>
        rw [hnone] at hi
        cases hi
  · have hbytes := hsame m hm
    have hfour := hsolid m hm
    unfold countedAll at hbytes
    by_cases hne : m.elements = 0
    · exact .inl hne
    obtain ⟨w, hw, hname, hnone⟩ := hown
    have hstruct := (memberStruct_some (s := s) hw).trans hnone
    cases h.typed hs hm with
    | scalar _ hnot _ _ => exact absurd ⟨w, hw, hname, hnone⟩ hnot
    | named _ _ hi _ _ =>
        rw [hstruct] at hi
        cases hi
    | bare _ _ hi _ _ =>
        rw [hstruct] at hi
        cases hi
    | own _ _ _ ht hv =>
        rw [hv, h.empty hs, Int.zero_mul] at hbytes
        have hzero := Int.mul_eq_zero.mp hbytes
        omega
    | bareOwn htype _ _ ht hv =>
        rw [hv] at hbytes
        have hunit : unit t m = 4 := Int.eq_of_mul_eq_mul_right (by omega) hbytes
        rw [← ht, hunit] at hsize
        exact .inr ⟨htype, one_element hsolid hsize hm hne⟩
  · have hfour := hsolid m hm
    refine Int.mul_le_mul_of_nonneg_right (max_le hfour ?_) (Int.natCast_nonneg _)
    cases h.typed hs hm with
    | scalar hnone _ _ _ => rwa [unit_none hnone]
    | named _ _ _ ht _ => rw [ht]
    | bare _ _ _ ht _ => rw [ht]
    | own _ hnone _ _ _ => rwa [unit_none hnone]
    | bareOwn _ hnone _ _ _ => rwa [unit_none hnone]

/-- Behind a definition that fits. -/
theorem Fitting.sound (h : Defined d s v t) (hs : Sound s) (hfits : Fitting s d) :
    Sound t ∧ t.old < t.st_count := by
  have hcount := hs.st_count
  have hold := hs.old
  refine ⟨⟨?_, ?_, fun i hlow hi => ?_, fun i hi => ?_⟩, ?_⟩
  · rw [h.outer.old]
    exact hs.first
  · rw [h.outer.old, h.outer.st_count]
    omega
  · rw [h.outer.old] at hlow
    rw [h.outer.st_count] at hi
    by_cases hlast : i = (s.st_count + 1).toNat
    · rw [hlast, ← h.outer.last]
      exact ⟨(hfits.laidOut h hs).size, (h.aligned hs).2⟩
    · rw [h.outer.others i hlast]
      exact hs.sizes i hlow (by omega)
  · rw [h.outer.st_count] at hi
    rw [h.outer.others i (by omega)]
    exact hs.spare i (by omega)
  · rw [h.outer.old, h.outer.st_count]
    omega

/-! ### The definitions of a text -/

/-- A struct definition is read from `u` on, in the round that starts in `v`. -/
inductive Enters (v : Parser) : Parser → Prop
  | struct (htype : tokenType v v.tp1 = K_STRUCT) (hbrace : tokenType v (v.tp1 + 2) = '{'.toNat) :
      Enters v v
  | typedef (htype : tokenType v v.tp1 = K_TYPEDEF) : Enters v (v.goto (v.tp1 + 1))

/-- The property holds of the struct definitions of a text that `parse_struct_def` accepts: of the state in
front, of the definition and of the state behind it. -/
def AllDefinitions (n : Nat) (tokens : List Token) (s : Parser) (Q : Parser → Definition → Parser → Prop) :
    Prop :=
  ∀ v u t, ComesTo n tokens s v → Enters v u → parse_struct_def (calls n) u = .ok () t →
    ∃ d, readStruct (calls n) u = .ok d t ∧ Q u d t

variable {n : Nat} {tokens : List Token} {w : Parser}

theorem AllDefinitions.read {Q : Parser → Definition → Parser → Prop} (h : AllDefinitions n tokens s Q)
    (hv : ComesTo n tokens s v) (hu : Enters v u) (hread : readStruct (calls n) u = .ok d t) : Q u d t := by
  have hparse : parse_struct_def (calls n) u = .ok () t := by
    rw [parse_struct_def_tells, hread]
    rfl
  obtain ⟨d', hread', hQ⟩ := h v u t hv hu hparse
  rw [hread] at hread'
  cases hread'
  exact hQ

theorem Sound.unbuilt (hs : Sound s) (h : Unbuilt s t) : Sound t := by
  refine ⟨?_, ?_, fun i => ?_, fun i => ?_⟩
  · rw [h.old]
    exact hs.first
  · rw [h.st_count, h.old]
    exact hs.old
  · rw [h.st_count, h.old, h.structs]
    exact hs.sizes i
  · rw [h.st_count, h.structs]
    exact hs.spare i

/-- A struct gets another name, in its own entry or in a new one. -/
theorem Sound.named (hs : Sound s) (hlast : s.old < s.st_count) {e : Structentry}
    (he : e.size = (lastStruct s).size) (hold : t.old = s.old)
    (hcount : t.st_count = s.st_count ∨ t.st_count = s.st_count + 1)
    (hstructs : t.struct_table = s.struct_table) (h : Alters (fun _ => e) t u) : Sound u := by
  have hfirst := hs.first
  have hentry := h.entry
  have hothers := h.others
  rw [hstructs] at hothers
  have hsize := hs.sizes s.st_count.toNat (by omega) (by omega)
  refine ⟨?_, ?_, fun i hlow hi => ?_, fun i hi => ?_⟩
  · rw [h.old, hold]
    exact hs.first
  · rw [h.old, hold, h.st_count]
    omega
  · rw [h.old, hold] at hlow
    rw [h.st_count] at hi
    by_cases hown : i = t.st_count.toNat
    · rw [hown, hentry, he]
      exact hsize
    · rw [hothers i hown]
      exact hs.sizes i hlow (by omega)
  · rw [h.st_count] at hi
    rw [hothers i (by omega)]
    exact hs.spare i (by omega)

/-- Behind a struct definition that fits if what is in front of it is sound. -/
theorem parse_struct_def_sound (hs : Sound s) (hnum : Numerals s.tokens)
    (hfits : ∀ d t, readStruct r s = .ok d t → Fitting s d) (h : parse_struct_def r s = .ok () t) :
    Sound t ∧ t.old < t.st_count ∧ t.tokens = s.tokens := by
  obtain ⟨d, hd, -⟩ := (parse_struct_def_tells r).ok h
  obtain ⟨v, hdefined⟩ := readStruct_ok hnum hd
  obtain ⟨hsound, hlast⟩ := (hfits d t hd).sound hdefined hs
  exact ⟨hsound, hlast, hdefined.outer.tokens⟩

theorem parse_typedef_sound (hs : Sound s) (hnum : Numerals s.tokens)
    (hfits : ∀ d t, readStruct r (s.goto (s.tp1 + 1)) = .ok d t → Fitting (s.goto (s.tp1 + 1)) d)
    (h : parse_typedef r s = .ok () t) : Sound t := by
  obtain ⟨_, s₁, h₁, h⟩ := bind_ok_iff.mp h
  have hplace : s₁ = s.goto (s.tp1 + 1) := consume_ok h₁
  have hs₁ : Sound s₁ := hs.unbuilt ((consume_rule looking _).keeps _ _ _ h₁)
  rw [← hplace] at hfits
  obtain ⟨_, _, hpeek, h⟩ := bind_ok_iff.mp h
  cases hpeek
  split at h
  case isFalse => cases h
  obtain ⟨_, s₂, h₂, h⟩ := bind_ok_iff.mp h
  have htokens : s₁.tokens = s.tokens := by
    rw [hplace]
    rfl
  obtain ⟨hs₂, hlast, -⟩ := parse_struct_def_sound hs₁ (by rw [htokens]; exact hnum) hfits h₂
  obtain ⟨a_tok, s₃, h₃, h⟩ := (consume_rule looking _).keeps.split h
  obtain ⟨_, s₄, h₄, h⟩ := (consume_rule looking _).keeps.split h
  obtain ⟨e, s₅, h₅, h⟩ := bind_ok_iff.mp h
  have hunbuilt : Unbuilt s₂ s₅ := (h₃.trans _ _ _ h₄).trans _ _ _ ((looking.leaning _).keeps _ _ _ h₅)
  have hentry : s₄.struct_table s₄.st_count.toNat = e := (Out.ok.inj h₅).1
  have he : ({ e with name := some a_tok.name } : Structentry).size = (lastStruct s₂).size := by
    rw [← hentry, (h₃.trans _ _ _ h₄).structs, (h₃.trans _ _ _ h₄).st_count]
    rfl
  obtain ⟨_, s₆, h₆, h⟩ := bind_ok_iff.mp h
  have halters : Alters (fun _ => { e with name := some a_tok.name }) s₆ t := modifyStruct_alters _ _ _ _ h
  split at h₆
  · cases h₆
    exact hs₂.named hlast he hunbuilt.old (.inl hunbuilt.st_count) hunbuilt.structs halters
  · obtain ⟨-, hcount, hold, hstructs⟩ := newStruct_ok h₆
    exact hs₂.named hlast he (hold.trans hunbuilt.old) (.inr (by rw [hcount, hunbuilt.st_count]))
      (hstructs.trans hunbuilt.structs) halters

theorem declared_unbuilt (n : Nat) (ahead : Int) : Always Unbuilt (declared (calls n) ahead) := by
  have hr := calls_have unbuilt n
  have hnode := append_node_rule Unbuilt.rules unbuilt.gt_count fun _ _ => ⟨rfl, rfl, rfl, rfl⟩
  refine Unbuilt.rules.bind ?_ fun node => Unbuilt.rules.bind (hnode node) fun _ => Unbuilt.rules.pure _
  split
  · exact parse_function_rule unbuilt hr
  · exact parse_global_declaration_rule unbuilt hr

/-- A round of the loop over the text, if the struct definition in it fits. -/
theorem topLevel_sound (hs : Sound v) (hnum : Numerals v.tokens)
    (hfits : ∀ u d t, Enters v u → readStruct (calls n) u = .ok d t → Sound u → Fitting u d)
    (h : topLevel (calls n) v = .ok true w) : Sound w := by
  rw [topLevel_eq] at h
  split at h
  · cases h
  split at h
  · rename_i hstruct
    obtain ⟨_, t, ht, h⟩ := bind_ok_iff.mp h
    cases h
    have hu : Enters v v := .struct hstruct.1 hstruct.2
    exact (parse_struct_def_sound hs hnum (fun d t hd => hfits v d t hu hd hs) ht).1
  split at h
  · rename_i htypedef
    obtain ⟨_, t, ht, h⟩ := bind_ok_iff.mp h
    cases h
    have hs' : Sound (v.goto (v.tp1 + 1)) := hs.unbuilt ⟨rfl, rfl, rfl, rfl⟩
    exact parse_typedef_sound hs hnum (fun d t hd => hfits _ d t (.typedef htypedef) hd hs') ht
  · obtain ⟨b, t, ht, h⟩ := ((is_type_rule looking _).keeps).split h
    split at h
    · exact hs.unbuilt (ht.trans _ _ _ ((declared_unbuilt n _).keeps _ _ _ h))
    · obtain ⟨_, u, hu, h⟩ := bind_ok_iff.mp h
      cases hu
      cases h
      exact hs.unbuilt (ht.trans _ _ _ ⟨rfl, rfl, rfl, rfl⟩)

/-- In front of every round, if the struct definitions before it fit. -/
theorem comesTo_sound (hs : Sound (begun tokens s)) (hnum : Numerals tokens)
    (hfits : ∀ v u d t, ComesTo n tokens s v → Enters v u → readStruct (calls n) u = .ok d t → Sound u →
      Fitting u d) (h : ComesTo n tokens s v) : Sound v := by
  have hall : ∀ p : Unit × Parser, Prog.Rounds (round (calls n)) ((), begun tokens s) p → Sound p.2 := by
    intro p hp
    induction hp with
    | refl => exact hs
    | @tail p q hrounds hround ih =>
        have hp : ComesTo n tokens s p.2 := hrounds
        have htokens : p.2.tokens = tokens := (rounds_ahead hrounds).tokens
        exact topLevel_sound ih (by rw [htokens]; exact hnum) (fun u d t => hfits p.2 u d t hp)
          (round_next hround)
  exact hall _ h

/-! ### Entries that have not been used -/

/-- The entries behind the last struct are those the table started with. -/
structure Spare (s : Parser) : Prop where
  st_count : -1 ≤ s.st_count
  sizes : ∀ i : Nat, s.st_count < i → (s.struct_table i).size = 0

/-- The same, with a struct in the table. -/
structure Filled (s : Parser) : Prop where
  st_count : 0 ≤ s.st_count
  sizes : ∀ i : Nat, s.st_count < i → (s.struct_table i).size = 0

theorem Filled.spare (h : Filled s) : Spare s := ⟨Int.le_trans (by decide) h.st_count, h.sizes⟩

theorem Spare.unbuilt (hs : Spare s) (h : Unbuilt s t) : Spare t :=
  ⟨by rw [h.st_count]; exact hs.st_count, by rw [h.st_count, h.structs]; exact hs.sizes⟩

theorem Filled.unbuilt (hs : Filled s) (h : Unbuilt s t) : Filled t :=
  ⟨by rw [h.st_count]; exact hs.st_count, by rw [h.st_count, h.structs]; exact hs.sizes⟩

theorem unbuilt_spare {x : P α} (h : Always Unbuilt x) : Carries Spare Spare Spare x :=
  h.carries (fun _ _ hst hs => hs.unbuilt hst) fun _ hs => hs

theorem unbuilt_filled {x : P α} (h : Always Unbuilt x) : Carries Spare Filled Filled x :=
  h.carries (fun _ _ hst hs => hs.unbuilt hst) fun _ hs => hs.spare

/-- Where there is a struct in the table, only entries up to the last one change. -/
theorem filling : Reading fun α (x : P α) => Carries Spare Filled Filled x where
  toLooking := looking.mono (carries_rules fun _ hs => hs.spare) unbuilt_filled
  modifyStruct f s hs := by
    have hcount := hs.st_count
    refine ⟨hcount, fun i hi => ?_⟩
    have hne : i ≠ s.st_count.toNat := by
      change s.st_count < i at hi
      omega
    show (if i = s.st_count.toNat then f (s.struct_table i) else s.struct_table i).size = 0
    rw [if_neg hne]
    exact hs.sizes i hi
  grow s hs := by
    have hcount := hs.st_count
    refine ⟨?_, fun i hi => hs.sizes i ?_⟩
    · show 0 ≤ s.st_count + 1
      omega
    · change s.st_count + 1 < i at hi
      omega

theorem newStruct_filled : Carries Spare Spare Filled newStruct := by
  refine carries_bind (unbuilt_spare (looking.leaning _)) fun n => ?_
  split
  · intro s hs
    have hcount := hs.st_count
    refine ⟨?_, fun i hi => hs.sizes i ?_⟩
    · show 0 ≤ s.st_count + 1
      omega
    · change s.st_count + 1 < i at hi
      omega
  · exact fun s hs => hs

theorem parse_struct_def_filled : Carries Spare Spare Filled (parse_struct_def r) :=
  carries_bind newStruct_filled fun _ => structBody_rule filling

theorem parse_typedef_filled : Carries Spare Spare Filled (parse_typedef r) := by
  have H := filling.toLooking
  refine carries_bind (unbuilt_spare (consume_rule looking _)) fun _ =>
    carries_bind (unbuilt_spare looking.peek) fun t => ?_
  split
  · refine carries_bind parse_struct_def_filled fun _ => H.bind (consume_rule H _) fun a_tok =>
      H.bind (consume_rule H _) fun _ => H.bind (H.leaning _) fun e => H.bind ?_ fun _ =>
        filling.modifyStruct _
    split
    · exact H.pure _
    · exact newStruct_rule filling
  · exact fun s hs => hs

theorem topLevel_spare (n : Nat) : Carries Spare Spare Spare (topLevel (calls n)) := by
  refine carries_bind (unbuilt_spare looking.peek) fun tok =>
    carries_bind (unbuilt_spare Unbuilt.refl) fun there => ?_
  split
  · exact unbuilt_spare (looking.pure _)
  split
  · exact carries_bind (parse_struct_def_filled.weaken fun _ hs => hs.spare) fun _ =>
      unbuilt_spare (looking.pure _)
  split
  · exact carries_bind (parse_typedef_filled.weaken fun _ hs => hs.spare) fun _ =>
      unbuilt_spare (looking.pure _)
  refine carries_bind (unbuilt_spare (is_type_rule looking _)) fun b => ?_
  split
  · exact unbuilt_spare (declared_unbuilt n there)
  · exact carries_bind (unbuilt_spare looking.forward) fun _ => unbuilt_spare (looking.pure _)

theorem parse_spare (n : Nat) (tokens : List Token) (hs : Spare s) : Spare (parse n tokens s).state := by
  have hrules : Rules fun α (x : P α) => Carries Spare Spare Spare x := carries_rules fun _ hs => hs
  have hrounds : Carries Spare Spare Spare (topLevels (calls n)) := by
    refine hrules.cycle (fun _ => hrules.bind (topLevel_spare n) fun b => ?_) _ _
    split
    · exact hrules.pure _
    · exact hrules.pure _
  rw [parse_eq]
  exact hrounds.state (fun _ hs => hs) ⟨hs.st_count, hs.sizes⟩

theorem Reachable.spare (h : Reachable s) : Spare s := by
  induction h with
  | start => exact ⟨Int.le_refl _, fun _ _ => rfl⟩
  | @accepted n tokens s t _ ht ih =>
      have hspare := parse_spare n tokens ih
      rwa [ht] at hspare
  | @aborted n tokens s t code _ ht ih =>
      have hspare := parse_spare n tokens ih
      rwa [ht] at hspare

theorem Spare.sound (hs : Spare s) (tokens : List Token) : Sound (begun tokens s) :=
  ⟨hs.st_count, Int.le_refl _, fun _ hlow hi => absurd hi (Int.not_le.mpr hlow), hs.sizes⟩

/-! ### Layouts -/

theorem Enters.unbuilt (h : Enters v u) : Unbuilt v u := by
  cases h with
  | struct _ _ => exact Unbuilt.refl _
  | typedef _ => exact ⟨rfl, rfl, rfl, rfl⟩

theorem Enters.defined (hu : Enters v u) (hnum : Numerals tokens) (hv : ComesTo n tokens s v)
    (hread : readStruct (calls n) u = .ok d t) : ∃ w, Defined d u w t := by
  refine readStruct_ok ?_ hread
  rw [hu.unbuilt.tokens, (rounds_ahead hv).tokens]
  exact hnum

/-- `struct A { char c; int n[3]; };` -/
def arrayText : List Token :=
  [⟨K_STRUCT, "struct".toList⟩, ⟨T_IDENTIFIER, ['A']⟩, ⟨'{'.toNat, ['{']⟩, ⟨K_CHAR, "char".toList⟩,
    ⟨T_IDENTIFIER, ['c']⟩, ⟨';'.toNat, [';']⟩, ⟨K_INT, "int".toList⟩, ⟨T_IDENTIFIER, ['n']⟩,
    ⟨'['.toNat, ['[']⟩, ⟨T_INT, ['3']⟩, ⟨']'.toNat, [']']⟩, ⟨';'.toNat, [';']⟩, ⟨'}'.toNat, ['}']⟩,
    ⟨';'.toNat, [';']⟩, ⟨T_EOF, []⟩]

/-- `typedef struct { int x; int y; } P; struct S { P p; int z; };` -/
def pairText : List Token :=
  [⟨K_TYPEDEF, "typedef".toList⟩, ⟨K_STRUCT, "struct".toList⟩, ⟨'{'.toNat, ['{']⟩, ⟨K_INT, "int".toList⟩,
    ⟨T_IDENTIFIER, ['x']⟩, ⟨';'.toNat, [';']⟩, ⟨K_INT, "int".toList⟩, ⟨T_IDENTIFIER, ['y']⟩,
    ⟨';'.toNat, [';']⟩, ⟨'}'.toNat, ['}']⟩, ⟨T_IDENTIFIER, ['P']⟩, ⟨';'.toNat, [';']⟩,
    ⟨K_STRUCT, "struct".toList⟩, ⟨T_IDENTIFIER, ['S']⟩, ⟨'{'.toNat, ['{']⟩, ⟨T_IDENTIFIER, ['P']⟩,
    ⟨T_IDENTIFIER, ['p']⟩, ⟨';'.toNat, [';']⟩, ⟨K_INT, "int".toList⟩, ⟨T_IDENTIFIER, ['z']⟩,
    ⟨';'.toNat, [';']⟩, ⟨'}'.toNat, ['}']⟩, ⟨';'.toNat, [';']⟩, ⟨T_EOF, []⟩]

/-- A text whose numbers have digits alone. -/
theorem numerals_of {ts : List Token} (h : tokens.filter (fun tok => tok.type = T_INT) = ts)
    (hts : ∀ tok ∈ ts, Numeral tok.name) : Numerals tokens := by
  intro tok htok htype
  refine hts tok ?_
  rw [← h]
  exact List.mem_filter.mpr ⟨htok, decide_eq_true htype⟩

theorem array_numerals : Numerals arrayText := by
  have hfilter : arrayText.filter (fun tok => tok.type = T_INT) = [⟨T_INT, ['3']⟩] := rfl
  refine numerals_of hfilter fun tok htok c hc => ?_
  rw [List.mem_singleton.mp htok] at hc
  rw [List.mem_singleton.mp hc]
  decide

/-- The members of the struct that is read from `u` on, by the types of their first tokens and their
elements, and the place behind it. -/
def memberTypes (n : Nat) (u : Parser) : Option (List (Int × Nat) × Nat) :=
  match readStruct (calls n) u with
  | .ok d t => some (d.members.map fun m => (m.type_tok.type, m.elements), t.tp1)
  | _ => none

theorem of_memberTypes {l : List (Int × Nat) × Nat} (h : memberTypes n u = some l) :
    ∃ d t, readStruct (calls n) u = .ok d t ∧ (d.members.map fun m => (m.type_tok.type, m.elements)) = l.1 ∧
      t.tp1 = l.2 := by
  unfold memberTypes at h
  split at h
  · rename_i d t hread
    obtain rfl := Option.some.inj h
    exact ⟨d, t, hread, rfl, rfl⟩
  · cases h

theorem array_read : memberTypes 9 (begun arrayText start) = some ([(K_CHAR, 1), (K_INT, 3)], 13) := by
  decide +kernel

/-- The places of the members of the struct that the second round of a text reads, with their bytes; and the
size of the struct. -/
def secondStruct (n : Nat) (tokens : List Token) (s : Parser) : Option (List (Int × Int) × Int) :=
  match topLevel (calls n) (begun tokens s) with
  | .ok true v =>
      match readStruct (calls n) v with
      | .ok d t => if tokenType v v.tp1 = K_STRUCT ∧ tokenType v (v.tp1 + 2) = '{'.toNat then
          some ((slots (fun m => unit t m * m.elements) (fun _ => 0) d.members (lastStruct t).offset).map
            fun x => (x.place, x.used), (lastStruct t).size)
          else none
      | _ => none
  | _ => none

theorem pair_second : secondStruct 9 pairText start = some ([(0, 8), (4, 4)], 8) := by
  decide +kernel

/-- Behind its struct the text has a semicolon only. -/
theorem array_enters (hv : ComesTo 9 arrayText start v) (hu : Enters v u) : u = begun arrayText start := by
  obtain ⟨d, t, hread, -, htp1⟩ := of_memberTypes array_read
  have hparse : parse_struct_def (calls 9) (begun arrayText start) = .ok () t := by
    rw [parse_struct_def_tells, hread]
    rfl
  have hfirst : topLevel (calls 9) (begun arrayText start) = .ok true t := by
    rw [topLevel_eq, if_neg (by decide), if_pos ⟨rfl, rfl⟩]
    exact bind_of_ok hparse
  obtain heq | ⟨w, hw, hahead⟩ := rounds_behind hv
  · obtain ⟨-, rfl⟩ := Prod.ext_iff.mp heq
    cases hu with
    | struct _ _ => rfl
    | typedef htype => exact absurd htype (by decide)
  · exfalso
    obtain ⟨-, rfl⟩ := Out.ok.inj (hfirst.symm.trans hw)
    have htokens : v.tokens = arrayText := (rounds_ahead hv).tokens
    have hplace : 13 ≤ v.tp1 := by
      rw [← show t.tp1 = 13 from htp1]
      exact hahead.tp1
    have htype : tokenType v v.tp1 = ';'.toNat ∨ tokenType v v.tp1 = T_EOF := by
      unfold tokenType tokenAt
      rw [htokens]
      obtain hlast | hlast | hbeyond : v.tp1 = 13 ∨ v.tp1 = 14 ∨ arrayText.length ≤ v.tp1 := by
        show v.tp1 = 13 ∨ v.tp1 = 14 ∨ 15 ≤ v.tp1
        omega
      · rw [hlast]
        exact .inl rfl
      · rw [hlast]
        exact .inr rfl
      · rw [List.getElem?_eq_none hbeyond]
        exact .inr rfl
    cases hu with
    | struct hstruct _ =>
        rw [hstruct] at htype
        exact absurd htype (by decide)
    | typedef htypedef =>
        rw [htypedef] at htype
        exact absurd htype (by decide)

end Parser

end Eke
