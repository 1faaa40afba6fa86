/-
The string pool as an array.

`str_pool` has `MAX_STR_POOL` cells, and a string is written into it cell by cell: the loop stops
two cells before the end, the zero behind the string is written in any case.  So a string cannot
overrun the pool, whatever its length, but a string more behind a full pool takes a cell each time.
`Gen.add_to_string_pool` is the same function on a list that has no end (`add_holds`).
-/
import Eke.Compiler.Strings
import Eke.Lib.Prog

namespace Eke

open Gen Prog

structure StrPool where
  str_pool : Nat → Byte
  str_pool_len : Nat

namespace StrPool

/-- `str_pool[str_pool_len++] = b`; the language does not define a write behind the array. -/
def store (b : Byte) : Prog StrPool Unit := do
  let len ← gets str_pool_len
  if len < MAX_STR_POOL then update fun p => ⟨Function.update p.str_pool len b, len + 1⟩
  else undefined

/-- What is written for a backslash and the character behind it. -/
def escaped (c : Char) : Byte :=
  if c = 'n' then 10 else if c = 't' then 9 else if c = 'r' then 13 else if c = '\\' then 92
  else if c = '"' then 34 else if c = '0' then 0 else BitVec.ofNat 8 c.toNat

/-- `raw_str[i]`, with the terminator. -/
def charAt (raw_str : Name) (i : Nat) : Char := raw_str.getD i '\x00'

/-- The first index of the loop. -/
def first (raw_str : Name) : Nat := if charAt raw_str 0 = '"' then 1 else 0

/-- `end`, which is an `int`. -/
def stop (raw_str : Name) : Int :=
  let stop := (BitVec.ofNat 32 raw_str.length).toInt
  if (first raw_str : Int) < stop ∧ charAt raw_str (stop - 1).toNat = '"' then stop - 1 else stop

/-- One round of the loop. -/
def round (raw_str : Name) (i : Nat) : Prog StrPool (Nat ⊕ Unit) := do
  let len ← gets str_pool_len
  if (i : Int) < stop raw_str ∧ len < MAX_STR_POOL - 2 then
    if charAt raw_str i = '\\' ∧ (i : Int) + 1 < stop raw_str then do
      store (escaped (charAt raw_str (i + 1)))
      pure (.inl (i + 2))
    else do
      store (BitVec.ofNat 8 (charAt raw_str i).toNat)
      pure (.inl (i + 1))
  else pure (.inr ())

/-- A null pointer gives 0. -/
def add_to_string_pool : Option Name → Prog StrPool Nat
  | none => pure 0
  | some raw_str => do
      let start_offset ← gets str_pool_len
      cycle (raw_str.length + 1) (round raw_str) (first raw_str)
      store 0
      pure start_offset

/-- The calls of one compilation. -/
def add_all : List Name → Prog StrPool (List Nat)
  | [] => pure []
  | s :: ss => do
      let offset ← add_to_string_pool (some s)
      let offsets ← add_all ss
      pure (offset :: offsets)

/-- `codegen_x86_emit` starts with an empty pool, in the array as it is. -/
def reset (p : StrPool) : StrPool := { p with str_pool_len := 0 }

/-! ### Bytes behind the pool -/

/-- The pool with one byte more, without a look at its end. -/
def push (p : StrPool) (b : Byte) : StrPool :=
  ⟨Function.update p.str_pool p.str_pool_len b, p.str_pool_len + 1⟩

def pushes (p : StrPool) (bs : List Byte) : StrPool := bs.foldl push p

variable {p q : StrPool} {b : Byte} {bs cs : List Byte} {raw s : Name} {ss : List Name}

theorem store_ok (h : p.str_pool_len < MAX_STR_POOL) : store b p = .ok () (p.push b) := by
  unfold store
  rw [bind_gets, if_pos h]
  rfl

theorem store_wild (h : MAX_STR_POOL ≤ p.str_pool_len) : store b p = .wild p := by
  unfold store
  rw [bind_gets, if_neg (Nat.not_lt.mpr h)]
  rfl

theorem pushes_append : p.pushes (bs ++ cs) = (p.pushes bs).pushes cs := List.foldl_append

theorem pushes_len : (p.pushes bs).str_pool_len = p.str_pool_len + bs.length := by
  induction bs generalizing p with
  | nil => rfl
  | cons b bs ih =>
      show ((p.push b).pushes bs).str_pool_len = _
      rw [ih, List.length_cons]
      show p.str_pool_len + 1 + bs.length = _
      omega

/-- What is in the pool stays there. -/
theorem pushes_below {k : Nat} (h : k < p.str_pool_len) : (p.pushes bs).str_pool k = p.str_pool k := by
  induction bs generalizing p with
  | nil => rfl
  | cons b bs ih =>
      have hlen : k < (p.push b).str_pool_len := Nat.lt_succ_of_lt h
      show ((p.push b).pushes bs).str_pool k = _
      rw [ih hlen]
      exact Function.update_of_ne (Nat.ne_of_lt h) _ _

/-- The pool holds the bytes of a list. -/
def Holds (p : StrPool) (bs : List Byte) : Prop :=
  p.str_pool_len = bs.length ∧ ∀ k (h : k < bs.length), p.str_pool k = bs[k]

theorem push_holds (h : p.Holds bs) : (p.push b).Holds (bs ++ [b]) := by
  obtain ⟨hlen, hcells⟩ := h
  refine ⟨by simp [push, hlen], fun k hk => ?_⟩
  rw [List.length_append, List.length_singleton] at hk
  show Function.update p.str_pool p.str_pool_len b k = _
  rcases Nat.lt_succ_iff_lt_or_eq.mp hk with hlt | rfl
  · rw [Function.update_of_ne (by omega), hcells k hlt, List.getElem_append_left hlt]
  · rw [hlen, Function.update_self, List.getElem_concat_length rfl]

theorem pushes_holds (h : p.Holds bs) : (p.pushes cs).Holds (bs ++ cs) := by
  induction cs generalizing p bs with
  | nil => rwa [List.append_nil]
  | cons c cs ih =>
      have hrest := ih (@push_holds p c bs h)
      rwa [List.append_assoc, List.singleton_append] at hrest

/-! ### One string -/

theorem stop_le (raw : Name) : stop raw ≤ raw.length := by
  have hint : (BitVec.ofNat 32 raw.length).toInt ≤ raw.length := by
    rw [BitVec.toInt_eq_toNat_cond, BitVec.toNat_ofNat]
    split <;> omega
  unfold stop
  simp only
  split <;> omega

/-- The text in front of the loop at `i`. -/
def rest (raw_str : Name) (i : Nat) : Name := (raw_str.take (stop raw_str).toNat).drop i

theorem rest_cons {i : Nat} (h : (i : Int) < stop raw) : rest raw i = charAt raw i :: rest raw (i + 1) := by
  have hle := stop_le raw
  have hlt : i < (raw.take (stop raw).toNat).length := by
    rw [List.length_take]
    omega
  unfold rest charAt
  rw [List.drop_eq_getElem_cons hlt, List.getElem_take, List.getD_eq_getElem]

theorem rest_nil {i : Nat} (h : stop raw ≤ i) : rest raw i = [] := by
  refine List.drop_of_length_le ?_
  rw [List.length_take]
  omega

theorem unescape_backslash (c : Char) (cs : Name) :
    unescape ('\\' :: c :: cs) = escaped c :: unescape cs := by
  have hbyte : (if c = 'n' then 10 else if c = 't' then 9 else if c = 'r' then 13
      else if c = '0' then 0 else BitVec.ofNat 8 c.toNat : Byte) = escaped c := by
    unfold escaped
    by_cases hbackslash : c = '\\'
    · rw [hbackslash]
      rfl
    · by_cases hquote : c = '"'
      · rw [hquote]
        rfl
      · rw [if_neg hbackslash, if_neg hquote]
  rw [unescape, hbyte]

theorem unescape_plain {c : Char} (h : c = '\\' → s = []) :
    unescape (c :: s) = BitVec.ofNat 8 c.toNat :: unescape s := by
  rw [unescape]
  rintro d cs hbackslash rfl
  cases h hbackslash

theorem take_cons {len : Nat} (h : len < MAX_STR_POOL - 2) :
    (b :: bs).take (MAX_STR_POOL - 2 - len) = b :: bs.take (MAX_STR_POOL - 2 - (len + 1)) := by
  rw [show MAX_STR_POOL - 2 - len = (MAX_STR_POOL - 2 - (len + 1)) + 1 by omega, List.take_succ_cons]

/-- The loop writes the decoded text up to two cells before the end. -/
theorem rounds_ok : ∀ {n i : Nat} {p : StrPool}, (rest raw i).length < n → cycle n (round raw) i p =
    .ok () (p.pushes ((unescape (rest raw i)).take (MAX_STR_POOL - 2 - p.str_pool_len))) := by
  intro n
  induction n with
  | zero => intro i p h; exact absurd h (Nat.not_lt_zero _)
  | succ n ih =>
      intro i p hfuel
      by_cases hgo : (i : Int) < stop raw ∧ p.str_pool_len < MAX_STR_POOL - 2
      · have hroom : p.str_pool_len < MAX_STR_POOL := Nat.lt_of_lt_of_le hgo.2 (Nat.sub_le _ _)
        have hcons := rest_cons hgo.1
        by_cases hesc : charAt raw i = '\\' ∧ (i : Int) + 1 < stop raw
        · have hcons' : rest raw (i + 1) = charAt raw (i + 1) :: rest raw (i + 2) := rest_cons (by omega)
          have hround : round raw i p = .ok (.inl (i + 2)) (p.push (escaped (charAt raw (i + 1)))) := by
            unfold round
            rw [bind_gets, if_pos hgo, if_pos hesc, bind_of_ok (store_ok hroom)]
            rfl
          rw [hcons, hcons', hesc.1] at hfuel ⊢
          rw [cycle_next hround, ih (by simp at hfuel; omega), unescape_backslash, take_cons hgo.2]
          rfl
        · have hround : round raw i p =
              .ok (.inl (i + 1)) (p.push (BitVec.ofNat 8 (charAt raw i).toNat)) := by
            unfold round
            rw [bind_gets, if_pos hgo, if_neg hesc, bind_of_ok (store_ok hroom)]
            rfl
          have hplain : charAt raw i = '\\' → rest raw (i + 1) = [] := by
            intro hbackslash
            refine rest_nil (Int.not_lt.mp fun hlt => hesc ⟨hbackslash, ?_⟩)
            omega
          rw [hcons] at hfuel ⊢
          rw [cycle_next hround, ih (by simp at hfuel; omega), unescape_plain hplain, take_cons hgo.2]
          rfl
      · have hround : round raw i p = .ok (.inr ()) p := by
          unfold round
          rw [bind_gets, if_neg hgo]
          rfl
        have hnothing : (unescape (rest raw i)).take (MAX_STR_POOL - 2 - p.str_pool_len) = [] := by
          rcases not_and_or.mp hgo with hend | hfull
          · rw [rest_nil (Int.not_lt.mp hend)]
            exact List.take_nil
          · rw [Nat.sub_eq_zero_of_le (Nat.not_lt.mp hfull)]
            rfl
        rw [cycle_stop hround, hnothing]
        rfl

/-- The text between the quotes, as far as an `int` can count it. -/
def text (raw_str : Name) : Name := rest raw_str (first raw_str)

/-- The characters that fit into a pool of length `len`, with two cells left. -/
def fitting (len : Nat) (raw_str : Name) : List Byte :=
  (unescape (text raw_str)).take (MAX_STR_POOL - 2 - len)

theorem add_eq : add_to_string_pool (some raw) p =
    (store 0 >>= fun _ => pure p.str_pool_len) (p.pushes (fitting p.str_pool_len raw)) := by
  have hfuel : (rest raw (first raw)).length < raw.length + 1 := by
    unfold rest
    rw [List.length_drop, List.length_take]
    omega
  exact bind_of_ok (rounds_ok hfuel)

/-- What a call writes into a pool of length `len`. -/
def written (len : Nat) (raw_str : Name) : List Byte := fitting len raw_str ++ [0]

/-- A string goes into a pool with a free cell, cut off where the pool ends. -/
theorem add_ok (h : p.str_pool_len < MAX_STR_POOL) : add_to_string_pool (some raw) p =
    .ok p.str_pool_len (p.pushes (written p.str_pool_len raw)) := by
  have hroom : (p.pushes (fitting p.str_pool_len raw)).str_pool_len < MAX_STR_POOL := by
    rw [pushes_len, fitting, List.length_take]
    omega
  rw [add_eq, bind_of_ok (store_ok hroom), written, pushes_append]
  rfl

/-- A full pool is overrun by the zero, whatever the string. -/
theorem add_wild (h : MAX_STR_POOL ≤ p.str_pool_len) : add_to_string_pool (some raw) p = .wild p := by
  have hnothing : fitting p.str_pool_len raw = [] := by
    rw [fitting, show MAX_STR_POOL - 2 - p.str_pool_len = 0 by omega]
    rfl
  rw [add_eq, hnothing]
  exact bind_of_wild (store_wild h)

theorem charAt_quote {i : Nat} : charAt raw i = '"' ↔ raw[i]? = some '"' := by
  unfold charAt
  rw [List.getD_eq_getElem?_getD]
  cases raw[i]? with
  | none => decide
  | some c => exact (Option.some_inj).symm

/-- A text that an `int` can count is decoded as in the generator. -/
theorem text_eq (h : raw.length < 2 ^ 31) : text raw = stripQuotes raw := by
  have hint : (BitVec.ofNat 32 raw.length).toInt = raw.length := by
    rw [BitVec.toInt_eq_toNat_cond, BitVec.toNat_ofNat]
    split <;> omega
  have hfirst : first raw = if raw.head? = some '"' then 1 else 0 := by
    rw [first, List.head?_eq_getElem?]
    exact if_congr charAt_quote rfl rfl
  have hlast : (stop raw).toNat =
      if first raw < raw.length ∧ raw.getLast? = some '"' then raw.length - 1 else raw.length := by
    unfold stop
    simp only [hint, charAt_quote, Int.ofNat_lt]
    rw [List.getLast?_eq_getElem?, show ((raw.length : Int) - 1).toNat = raw.length - 1 by omega]
    split <;> omega
  unfold text rest stripQuotes
  rw [hlast, hfirst]

/-- While the list is shorter than the array, the pool holds the list of the generator. -/
theorem add_holds {g : Gen} (hraw : raw.length < 2 ^ 31) (hp : p.Holds g.str_pool)
    (hroom : g.str_pool.length < MAX_STR_POOL) : ∃ q, add_to_string_pool (some raw) p =
      .ok (g.add_to_string_pool raw).1 q ∧ q.Holds (g.add_to_string_pool raw).2.str_pool := by
  have hlen := hp.1
  have hpool : (g.add_to_string_pool raw).2.str_pool = g.str_pool ++ written g.str_pool.length raw := by
    rw [written, fitting, text_eq hraw, ← List.append_assoc]
    rfl
  have hadd := @add_ok p raw (hlen.trans_lt hroom)
  rw [hlen] at hadd
  refine ⟨_, hadd, ?_⟩
  rw [hpool]
  exact pushes_holds hp

/-! ### All strings -/

/-- The cells a string needs. -/
def size (raw_str : Name) : Nat := (unescape (text raw_str)).length + 1

/-- There is a free cell in front of every call. -/
def Fits : Nat → List Name → Prop
  | _, [] => True
  | len, s :: ss => len < MAX_STR_POOL ∧ Fits (len + (written len s).length) ss

theorem written_length (len : Nat) (s : Name) :
    (written len s).length = min (MAX_STR_POOL - 2 - len) (size s - 1) + 1 := by
  rw [written, List.length_append, fitting, List.length_take]
  rfl

/-- Only a pool that is full before the last string is in the way. -/
theorem fits_iff : ∀ {ss : List Name} {len : Nat}, len < MAX_STR_POOL - 1 →
    (Fits len ss ↔ len + ((ss.take (ss.length - 2)).map size).sum < MAX_STR_POOL - 1) := by
  intro ss
  induction ss with
  | nil =>
      intro len h
      exact iff_of_true trivial h
  | cons s ss ih =>
      intro len h
      have hfree : len < MAX_STR_POOL := Nat.lt_of_lt_of_le h (Nat.sub_le _ _)
      have hwritten := written_length len s
      have hsize : 0 < size s := Nat.succ_pos _
      rw [Fits, and_iff_right hfree]
      match ss with
      | [] => exact iff_of_true trivial h
      | [t] =>
          refine iff_of_true ⟨?_, trivial⟩ h
          omega
      | t :: u :: ss =>
          rw [show (s :: t :: u :: ss).length - 2 = ((t :: u :: ss).length - 2) + 1 by simp,
            List.take_succ_cons, List.map_cons, List.sum_cons]
          by_cases hroom : len + size s < MAX_STR_POOL - 1
          · have hend : len + (written len s).length = len + size s := by omega
            rw [hend, ih hroom, Nat.add_assoc]
          · have hend : len + (written len s).length = MAX_STR_POOL - 1 := by omega
            rw [hend]
            refine iff_of_false (fun hfits => ?_) (by omega)
            have hsecond := hfits.2.1
            have hnext := written_length (MAX_STR_POOL - 1) t
            omega

/-- A string starts at `offset`: there is none before it that goes on, and a zero behind it. -/
def IsString (p : StrPool) (offset : Nat) : Prop :=
  (offset = 0 ∨ p.str_pool (offset - 1) = 0) ∧
    ∃ n, offset ≤ n ∧ n < p.str_pool_len ∧ p.str_pool n = 0

/-- No write is behind the array, the length stays within it, and every offset is that of a string. -/
def InBounds (ss : List Name) (p : StrPool) : Prop :=
  ∃ offsets q, add_all ss p = .ok offsets q ∧ q.str_pool_len ≤ MAX_STR_POOL ∧ ∀ o ∈ offsets, q.IsString o

/-- Nothing is in front of the pool's end that goes on behind it. -/
def Ended (p : StrPool) : Prop := p.str_pool_len = 0 ∨ p.str_pool (p.str_pool_len - 1) = 0

theorem written_zero : (p.pushes (written p.str_pool_len s)).str_pool
    ((p.pushes (written p.str_pool_len s)).str_pool_len - 1) = 0 := by
  rw [written, pushes_append]
  exact Function.update_self ..

theorem IsString.pushes {o : Nat} (h : p.IsString o) : (p.pushes bs).IsString o := by
  obtain ⟨hstart, n, hle, hlt, hzero⟩ := h
  have hlen := @pushes_len p bs
  refine ⟨hstart.imp_right fun hz => ?_, n, hle, by omega, ?_⟩
  · rw [pushes_below (by omega)]
    exact hz
  · rw [pushes_below hlt]
    exact hzero

theorem isString_written (h : p.Ended) : (p.pushes (written p.str_pool_len s)).IsString p.str_pool_len := by
  have hlen := @pushes_len p (written p.str_pool_len s)
  have hwritten := written_length p.str_pool_len s
  refine ⟨?_, _, by omega, by omega, written_zero⟩
  rcases Nat.eq_zero_or_pos p.str_pool_len with hempty | hpos
  · exact .inl hempty
  · rcases h with hempty | hzero
    · exact .inl hempty
    · rw [pushes_below (by omega)]
      exact .inr hzero

/-- A run only appends. -/
theorem add_all_pushes : ∀ {ss : List Name} {p q : StrPool} {offsets : List Nat},
    add_all ss p = .ok offsets q → ∃ bs, q = p.pushes bs := by
  intro ss
  induction ss with
  | nil =>
      intro p q offsets h
      cases h
      exact ⟨[], rfl⟩
  | cons s ss ih =>
      intro p q offsets h
      obtain ⟨o, t, ho, h⟩ := bind_ok_iff.mp h
      obtain ⟨os, u, hos, h⟩ := bind_ok_iff.mp h
      cases h
      rcases Nat.lt_or_ge p.str_pool_len MAX_STR_POOL with hfree | hfull
      · rw [add_ok hfree] at ho
        cases ho
        obtain ⟨bs, hbs⟩ := ih hos
        exact ⟨written p.str_pool_len s ++ bs, hbs.trans pushes_append.symm⟩
      · rw [add_wild hfull] at ho
        cases ho

/-- A run is in bounds exactly if there is a free cell in front of every call. -/
theorem in_bounds_fits : ∀ {ss : List Name} {p : StrPool}, p.Ended → p.str_pool_len ≤ MAX_STR_POOL →
    (InBounds ss p ↔ Fits p.str_pool_len ss) := by
  intro ss
  induction ss with
  | nil =>
      intro p _ h
      exact iff_of_true ⟨[], p, rfl, h, nofun⟩ trivial
  | cons s ss ih =>
      intro p hended hle
      rcases Nat.lt_or_ge p.str_pool_len MAX_STR_POOL with hfree | hfull
      · have hlen := @pushes_len p (written p.str_pool_len s)
        have hwritten := written_length p.str_pool_len s
        have hrest := @ih (p.pushes (written p.str_pool_len s)) (.inr written_zero) (by omega)
        rw [hlen] at hrest
        have hcons : ∀ os q, add_all ss (p.pushes (written p.str_pool_len s)) = .ok os q →
            add_all (s :: ss) p = .ok (p.str_pool_len :: os) q := by
          intro os q hrun
          exact (bind_of_ok (add_ok hfree)).trans (bind_of_ok hrun)
        rw [Fits, and_iff_right hfree, ← hrest]
        constructor
        · rintro ⟨offsets, q, hrun, hbound, hstrings⟩
          obtain ⟨o, t, ho, hrest⟩ := bind_ok_iff.mp hrun
          obtain ⟨os, u, hos, hlast⟩ := bind_ok_iff.mp hrest
          rw [add_ok hfree] at ho
          cases ho
          cases hlast
          exact ⟨os, q, hos, hbound, fun o ho => hstrings o (List.mem_cons_of_mem _ ho)⟩
        · rintro ⟨os, q, hrun, hbound, hstrings⟩
          refine ⟨_, q, hcons os q hrun, hbound, fun o ho => ?_⟩
          rcases List.mem_cons.mp ho with rfl | ho
          · obtain ⟨bs, rfl⟩ := add_all_pushes hrun
            exact (isString_written hended).pushes
          · exact hstrings o ho
      · refine iff_of_false (fun hin => ?_) fun hfits => Nat.not_lt.mpr hfull hfits.1
        obtain ⟨offsets, q, hrun, -⟩ := hin
        have hwild : add_all (s :: ss) p = .wild p := bind_of_wild (add_wild hfull)
        rw [hwild] at hrun
        cases hrun

/-- **The string pool.**  A compilation stays in the pool exactly if its strings but the last two leave
two cells free. -/
theorem string_pool_iff (ss : List Name) (p : StrPool) : InBounds ss (reset p) ↔
    ((ss.take (ss.length - 2)).map size).sum < MAX_STR_POOL - 1 := by
  have hfits := @in_bounds_fits ss (reset p) (.inl rfl) (Nat.zero_le _)
  have hsum := @fits_iff ss 0 (by decide)
  rw [Nat.zero_add] at hsum
  exact hfits.trans hsum

theorem escape_length : (escape s).length ≤ 2 * s.length := by
  induction s with
  | nil => exact Nat.le_refl 0
  | cons c s ih =>
      have hchar : (escapeChar c).length ≤ 2 := by
        unfold escapeChar
        split_ifs <;> exact Nat.le_of_ble_eq_true rfl
      rw [escape, List.length_append, List.length_cons]
      omega

/-- The literal of a string needs a cell for each of its characters and one for the zero. -/
theorem size_quoted (h : s.length < 2 ^ 29) : size (quoted s) = s.length + 1 := by
  have hescape := @escape_length s
  have hquoted : (quoted s).length = (escape s).length + 2 := by simp [quoted]
  rw [size, text_eq (by omega), stripQuotes_quoted, unescape_escape, byteString, List.length_map]

/-- A literal that fills the pool, and two empty ones behind it. -/
def fullPool (s : Name) : List Name := [quoted s, quoted [], quoted []]

/-- The zero of the second empty literal is written behind the array. -/
theorem fullPool_overruns (hfull : MAX_STR_POOL - 2 ≤ s.length) (h : s.length < 2 ^ 29) (p : StrPool) :
    ¬ InBounds (fullPool s) (reset p) := by
  intro hin
  have hfits := (in_bounds_fits (.inl rfl) (Nat.zero_le _)).mp hin
  have hsum := (@fits_iff _ 0 (by decide)).mp hfits
  change 0 + (size (quoted s) + 0) < _ at hsum
  rw [size_quoted h] at hsum
  omega

theorem string_pool_overrun : ¬ ∀ ss p, InBounds ss (reset p) := by
  have hlength : (List.replicate 8190 'a').length = 8190 := List.length_replicate
  intro h
  exact fullPool_overruns hlength.ge (hlength.trans_lt (by decide)) ⟨fun _ => 0, 0⟩ (h _ _)

end StrPool

end Eke
