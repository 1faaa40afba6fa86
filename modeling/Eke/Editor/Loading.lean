/-
What `load_file` makes of a file.

The bytes without carriage returns are cut at the newlines, and a line keeps its first 73
characters.  With 128 newlines or more the last write is behind the array.
-/
import Eke.Editor.Saving

namespace Eke

/-- The lines a file has in the editor: the lines that are finished, the one that is not, and
the bytes to come. -/
def decode : List (List Byte) → List Byte → List Byte → List (List Byte)
  | done, cur, [] => done ++ [cur]
  | done, cur, ch :: rest =>
      if ch = 13 then decode done cur rest
      else if ch = 10 then decode (done ++ [cur]) [] rest
      else if cur.length < 73 then decode done (cur ++ [ch]) rest
      else decode done cur rest

/-- The newlines among the bytes. -/
def newlines (data : List Byte) : Nat := data.count 10

theorem newlines_cons (ch : Byte) (data : List Byte) :
    newlines (ch :: data) = newlines data + if ch = 10 then 1 else 0 := by
  unfold newlines
  rw [List.count_cons]
  simp only [beq_iff_eq]

/-- What the loop computes, in one formula. -/
theorem decode_eq : ∀ (data : List Byte) (done : List (List Byte)) (c : List Byte), 10 ∉ c →
    decode done (c.take 73) data = done ++ ((c ++ data.filter (· ≠ 13)).splitOn 10).map (List.take 73) := by
  intro data
  induction data with
  | nil =>
      intro done c hc
      rw [List.filter_nil, List.append_nil, List.splitOn_eq_singleton hc]
      rfl
  | cons ch rest ih =>
      intro done c hc
      rw [decode]
      by_cases hcr : ch = 13
      · rw [if_pos hcr, List.filter_cons_of_neg (by simp only [hcr, ne_eq, not_true, decide_false, Bool.false_eq_true,
          not_false_eq_true])]
        exact ih done c hc
      rw [if_neg hcr, List.filter_cons_of_pos (by simp only [ne_eq, hcr, not_false_eq_true, decide_true])]
      by_cases hnl : ch = 10
      · subst hnl
        have hih := ih (done ++ [c.take 73]) [] List.not_mem_nil
        rw [List.take_nil, List.nil_append] at hih
        rw [if_pos rfl, hih, List.splitOn_append_cons_self_of_not_mem hc, List.append_assoc]
        rfl
      rw [if_neg hnl]
      have hih := ih done (c ++ [ch]) fun hmem => by
        rcases List.mem_append.mp hmem with hmem | hmem
        · exact hc hmem
        · exact hnl (List.mem_singleton.mp hmem).symm
      rw [List.append_assoc, List.singleton_append] at hih
      rw [← hih, List.length_take]
      by_cases hroom : c.length < 73
      · rw [if_pos (by omega), List.take_of_length_le (by omega), List.take_of_length_le (by
          rw [List.length_append, List.length_singleton]
          omega)]
      · rw [if_neg (by omega), List.take_append_of_le_length (by omega)]

namespace Editor

open Prog

variable {φ : Type} {s t : Editor φ} {done : List (List Byte)} {cur l : List Byte} {data : List Byte}

/-- The arrays while a file is read: finished lines, and the characters of the next one. -/
structure Reads (s : Editor φ) (done : List (List Byte)) (cur : List Byte) : Prop where
  rows : ∀ (j : Nat) (l : List Byte), done[j]? = some l → Row s j l
  max : ∀ l ∈ done, l.length ≤ 73
  chars : ∀ i : Nat, i < cur.length → s.lines done.length i = cur.getD i 0
  col : cur.length ≤ 73

/-- Reading touches nothing but the arrays. -/
structure OnlyArrays (s t : Editor φ) : Prop where
  eq : t = s.arrays t.lines t.line_lens

theorem OnlyArrays.refl (s : Editor φ) : OnlyArrays s s := ⟨rfl⟩

theorem OnlyArrays.trans {u : Editor φ} (h : OnlyArrays s t) (h' : OnlyArrays t u) : OnlyArrays s u :=
  ⟨by rw [h'.eq, h.eq]; rfl⟩

/-- The line is ended where it stands. -/
theorem Reads.end_line (h : Reads s done cur) (hl : done.length < 128) : ∃ t,
    (do setChar done.length cur.length 0; setLen done.length cur.length : E φ Unit) s = .ok () t ∧
      (∀ (j : Nat) (l : List Byte), (done ++ [cur])[j]? = some l → Row t j l) ∧ OnlyArrays s t := by
  have hcol := h.col
  rw [bind_of_ok (setChar_ok ⟨⟨by omega, by omega⟩, by omega, by omega⟩), setLen_ok ⟨by omega, by omega⟩]
  refine ⟨_, rfl, fun j l hj => ?_, ⟨rfl⟩⟩
  rw [List.getElem?_append] at hj
  by_cases hlt : j < done.length
  · rw [if_pos hlt] at hj
    refine (h.rows j l hj).congr (if_neg (by omega)) fun i => ?_
    exact if_neg (by omega)
  · rw [if_neg hlt] at hj
    obtain ⟨hj', hl'⟩ := List.getElem?_eq_some_iff.mp hj
    rw [List.length_singleton] at hj'
    have hjd : j = done.length := by omega
    subst hjd
    simp only [Nat.sub_self, List.getElem_cons_zero] at hl'
    subst hl'
    refine ⟨if_pos rfl, fun i hi => ?_⟩
    simp only [arrays, true_and]
    by_cases hend : i = cur.length
    · rw [if_pos (by omega), List.getD_eq_default _ _ (by omega)]
    · rw [if_neg (by omega)]
      exact h.chars i (by omega)

theorem Reads.next (h : Reads s done cur) (hl : done.length < 128) : ∃ t,
    (do setChar done.length cur.length 0; setLen done.length cur.length : E φ Unit) s = .ok () t ∧
      Reads t (done ++ [cur]) [] ∧ OnlyArrays s t := by
  obtain ⟨t, ht, hrows, honly⟩ := h.end_line hl
  refine ⟨t, ht, ⟨hrows, fun l hm => ?_, nofun, Nat.zero_le _⟩, honly⟩
  rcases List.mem_append.mp hm with hm | hm
  · exact h.max l hm
  · rw [List.mem_singleton.mp hm]
    exact h.col

/-- A character goes behind the line. -/
theorem Reads.push (h : Reads s done cur) (hl : done.length < 128) (hcol : cur.length < 73) (ch : Byte) : ∃ t,
    setChar done.length cur.length ch s = .ok () t ∧ Reads t done (cur ++ [ch]) ∧ OnlyArrays s t := by
  refine ⟨_, setChar_ok ⟨⟨by omega, by omega⟩, by omega, by omega⟩, ⟨fun j l hj => ?_, h.max, fun i hi => ?_, ?_⟩,
    ⟨rfl⟩⟩
  · have hlt := (List.getElem?_eq_some_iff.mp hj).1
    exact (h.rows j l hj).congr rfl fun i => if_neg (by omega)
  · rw [List.length_append, List.length_singleton] at hi
    rw [Document.getD_join]
    simp only [arrays, true_and]
    by_cases hend : i = cur.length
    · rw [if_pos (by omega), if_neg (by omega), hend, Nat.sub_self]
      rfl
    · rw [if_neg (by omega), if_pos (by omega)]
      exact h.chars i (by omega)
  · rw [List.length_append, List.length_singleton]
    omega

/-- The loop reads the bytes if the last line it comes to is in the array. -/
theorem load_bytes_ok : ∀ (data : List Byte) {s : Editor φ} {done : List (List Byte)} {cur : List Byte},
    Reads s done cur → done.length + newlines data < 128 → ∃ done' cur' t,
      load_bytes data done.length cur.length s = .ok ((done'.length : Int), (cur'.length : Int)) t ∧
        Reads t done' cur' ∧ OnlyArrays s t ∧ decode done cur data = done' ++ [cur'] ∧
        done'.length = done.length + newlines data := by
  intro data
  induction data with
  | nil => exact fun {s done cur} h _ => ⟨done, cur, s, rfl, h, .refl s, rfl, rfl⟩
  | cons ch rest ih =>
      intro s done cur h hcount
      have hcons := newlines_cons ch rest
      rw [hcons] at hcount
      rw [load_bytes, if_pos (show (done.length : Int) < MAX_LINES by unfold MAX_LINES; omega), decode, hcons]
      by_cases hcr : ch = 13
      · subst hcr
        rw [if_pos rfl, if_pos rfl]
        exact ih h (by omega)
      rw [if_neg hcr, if_neg hcr]
      by_cases hnl : ch = 10
      · rw [if_pos hnl] at hcount
        rw [if_pos hnl, if_pos hnl, if_pos hnl]
        obtain ⟨t, ht, hreads, honly⟩ := h.next (by omega)
        obtain ⟨done', cur', u, hu, hreads', honly', hdec, hlen⟩ := ih hreads (by
          rw [List.length_append, List.length_singleton]
          omega)
        rw [List.length_append, List.length_singleton, Int.natCast_add, Int.natCast_one] at hu
        obtain ⟨a, m, hm, ht⟩ := bind_ok_iff.mp ht
        rw [bind_of_ok hm, bind_of_ok ht]
        refine ⟨done', cur', u, hu, hreads', honly.trans honly', hdec, ?_⟩
        rw [hlen, List.length_append, List.length_singleton]
        omega
      · rw [if_neg hnl] at hcount
        rw [if_neg hnl, if_neg hnl, if_neg hnl]
        by_cases hcol : cur.length < 73
        · rw [if_pos (show (cur.length : Int) < MAX_COLS - 1 by unfold MAX_COLS; omega), if_pos hcol]
          obtain ⟨t, ht, hreads, honly⟩ := h.push (by omega) hcol ch
          obtain ⟨done', cur', u, hu, hreads', honly', hdec, hlen⟩ := ih hreads (by omega)
          rw [List.length_append, List.length_singleton, Int.natCast_add, Int.natCast_one] at hu
          rw [bind_of_ok ht]
          exact ⟨done', cur', u, hu, hreads', honly.trans honly', hdec, hlen⟩
        · rw [if_neg (show ¬ (cur.length : Int) < MAX_COLS - 1 by unfold MAX_COLS; omega), if_neg hcol]
          exact ih h (by omega)

theorem load_bytes_end (data : List Byte) (c : Int) :
    load_bytes data 128 c s = .ok ((128 : Int), c) s := by
  cases data with
  | nil => rfl
  | cons ch rest =>
      rw [load_bytes, if_neg (show ¬ (128 : Int) < MAX_LINES by unfold MAX_LINES; omega)]
      rfl

/-- With too many newlines the loop ends behind the array. -/
theorem load_bytes_over : ∀ (data : List Byte) {s : Editor φ} {done : List (List Byte)} {cur : List Byte},
    Reads s done cur → done.length < 128 → 128 ≤ done.length + newlines data → ∃ c t,
      load_bytes data done.length cur.length s = .ok ((128 : Int), c) t := by
  intro data
  induction data with
  | nil => exact fun {s done cur} _ hl hcount => absurd hcount (Nat.not_le.mpr hl)
  | cons ch rest ih =>
      intro s done cur h hl hcount
      rw [newlines_cons] at hcount
      rw [load_bytes, if_pos (show (done.length : Int) < MAX_LINES by unfold MAX_LINES; omega)]
      by_cases hcr : ch = 13
      · subst hcr
        rw [if_pos rfl]
        exact ih h hl hcount
      rw [if_neg hcr]
      by_cases hnl : ch = 10
      · rw [if_pos hnl] at hcount ⊢
        obtain ⟨t, ht, hreads, -⟩ := h.next hl
        obtain ⟨a, m, hm, ht⟩ := bind_ok_iff.mp ht
        rw [bind_of_ok hm, bind_of_ok ht]
        by_cases hfull : done.length = 127
        · rw [hfull]
          exact ⟨0, t, load_bytes_end rest 0⟩
        · have hnext : (done ++ [cur]).length = done.length + 1 := by
            rw [List.length_append, List.length_singleton]
          obtain ⟨c, u, hu⟩ := ih hreads (by omega) (by omega)
          rw [hnext, Int.natCast_add, Int.natCast_one] at hu
          exact ⟨c, u, hu⟩
      · rw [if_neg hnl] at hcount ⊢
        by_cases hcol : cur.length < 73
        · rw [if_pos (show (cur.length : Int) < MAX_COLS - 1 by unfold MAX_COLS; omega)]
          obtain ⟨t, ht, hreads, -⟩ := h.push hl hcol ch
          obtain ⟨c, u, hu⟩ := ih hreads hl hcount
          rw [List.length_append, List.length_singleton, Int.natCast_add, Int.natCast_one] at hu
          rw [bind_of_ok ht]
          exact ⟨c, u, hu⟩
        · rw [if_neg (show ¬ (cur.length : Int) < MAX_COLS - 1 by unfold MAX_COLS; omega)]
          exact ih h hl hcount

/-! ### The file -/

/-- The bytes `load_file` gets to see. -/
def bytesRead (fs : Option (FS_API φ)) (files : φ) (path : Path) : List Byte :=
  match fs with
  | none => []
  | some fs =>
      let sz := fs.get_size files path
      if sz = 0 then []
      else match fs.read_file files path (if sz < 8191 then sz else 8191) with
        | none => []
        | some data => data.val

/-- The document a file has in the editor. -/
def document (data : List Byte) : Document := { lines := decode [] [] data, y := 0, x := 0 }

/-- The variables as `load_file` sets them in front of the bytes. -/
def cleared (s : Editor φ) (path : Path) : Editor φ :=
  { s with
    lines := fun j i => if j = 0 ∧ i = 0 then 0 else s.lines j i
    line_lens := fun j => if j = 0 then 0 else s.line_lens j
    total_lines := 1, cur_x := 0, cur_y := 0, scroll_y := 0, is_dirty := false, status_msg := []
    filename := path.take 63 }

/-- What comes behind the bytes. -/
def load_end (l c : Int) : E φ Unit := do
  setChar l c 0
  setLen l c
  update fun s => { s with total_lines := l + 1 }

/-- The loop and what comes behind it run if there are bytes. -/
theorem load_file_eq (fs : Option (FS_API φ)) (path : Path) (s : Editor φ) :
    load_file fs path s =
      if bytesRead fs s.files path = [] then .ok () (cleared s path)
      else (do
        let ended ← load_bytes (bytesRead fs s.files path) 0 0
        load_end ended.1 ended.2) (cleared s path) := by
  have hstart : ∀ k : E φ Unit, (do
      update fun s => { s with total_lines := 1 }
      setLen 0 0
      setChar 0 0 0
      update fun s =>
        { s with cur_x := 0, cur_y := 0, scroll_y := 0, is_dirty := false, status_msg := []
                 filename := path.take 63 }
      k : E φ Unit) s = k (cleared s path) := fun k => rfl
  unfold load_file bytesRead
  cases fs with
  | none => exact hstart _
  | some fs =>
      refine (hstart _).trans ?_
      simp only [bind_gets]
      change (if fs.get_size s.files path = 0 then _ else _ : E φ Unit) (cleared s path) = _
      by_cases hsz : fs.get_size s.files path = 0
      · rw [if_pos hsz, if_pos hsz, if_pos rfl]
        rfl
      rw [if_neg hsz, if_neg hsz, bind_gets]
      have hfiles : (cleared s path).files = s.files := rfl
      rw [hfiles]
      generalize fs.read_file s.files path _ = r
      cases r with
      | none => rfl
      | some data =>
          by_cases hnil : data.val = []
          · simp only [if_pos hnil]
            rfl
          · simp only [if_neg hnil]
            rfl

/-- What `load_file` leaves beside the document. -/
structure Opened (s : Editor φ) (path : Path) (t : Editor φ) : Prop where
  files : t.files = s.files
  written : t.written = s.written
  filename : t.filename = path.take 63
  scroll_y : t.scroll_y = 0

theorem cleared_reads (s : Editor φ) (path : Path) : Reads (cleared s path) [] [] :=
  ⟨nofun, nofun, nofun, Nat.zero_le _⟩

variable (fs : Option (FS_API φ)) (path : Path)

/-- A file with few enough newlines becomes a document. -/
theorem load_file_ok (h : newlines (bytesRead fs s.files path) < 128) :
    ∃ t, load_file fs path s = .ok () t ∧ Holds t (document (bytesRead fs s.files path)) ∧ Opened s path t := by
  rw [load_file_eq]
  by_cases hnil : bytesRead fs s.files path = []
  · rw [if_pos hnil, hnil]
    refine ⟨_, rfl, ⟨⟨by decide, by decide, by decide, fun l hl => ?_⟩, rfl, rfl, rfl, fun j l hj => ?_⟩,
      ⟨rfl, rfl, rfl, rfl⟩⟩
    · rw [List.mem_singleton.mp hl]
      exact Nat.zero_le _
    · obtain ⟨hlt, hl⟩ := List.getElem?_eq_some_iff.mp hj
      have hj0 : j = 0 := Nat.lt_one_iff.mp hlt
      subst hj0
      obtain rfl : [] = l := hl
      exact ⟨rfl, fun i hi => if_pos ⟨rfl, by rw [Nat.le_zero.mp hi]; rfl⟩⟩
  · rw [if_neg hnil]
    obtain ⟨done, cur, t, ht, hreads, honly, hdec, hlen⟩ :=
      load_bytes_ok (bytesRead fs s.files path) (cleared_reads s path) (by rwa [List.length_nil, Nat.zero_add])
    rw [List.length_nil, Nat.zero_add] at hlen
    obtain ⟨u, hu, hrows, honly'⟩ := hreads.end_line (by omega)
    obtain ⟨a, m, hm, hu⟩ := bind_ok_iff.mp hu
    rw [bind_of_ok (show load_bytes _ 0 0 _ = _ from ht), load_end, bind_of_ok hm, bind_of_ok hu]
    have heq := (honly.trans honly').eq
    have hcol := hreads.col
    refine ⟨_, rfl, ⟨⟨?_, ?_, Nat.zero_le _, fun l hl => ?_⟩, ?_, ?_, ?_, fun j l hj => ?_⟩, ⟨?_, ?_, ?_, ?_⟩⟩
    · show (decode [] [] _).length ≤ 128
      rw [hdec, List.length_append, List.length_singleton]
      omega
    · show 0 < (decode [] [] _).length
      rw [hdec, List.length_append, List.length_singleton]
      omega
    · change l ∈ decode [] [] _ at hl
      rw [hdec] at hl
      rcases List.mem_append.mp hl with hl | hl
      · exact hreads.max l hl
      · rwa [List.mem_singleton.mp hl]
    · show ((done.length : Int) + 1) = ((decode [] [] _).length : Int)
      rw [hdec, List.length_append, List.length_singleton]
      rfl
    · exact congrArg cur_y heq
    · exact congrArg cur_x heq
    · change (decode [] [] _)[j]? = some l at hj
      rw [hdec] at hj
      exact ⟨(hrows j l hj).len, (hrows j l hj).chars⟩
    · exact (congrArg files heq : u.files = _)
    · exact (congrArg written heq : u.written = _)
    · exact congrArg filename heq
    · exact congrArg scroll_y heq

/-- A file with too many is written behind the array. -/
theorem load_file_wild (h : 128 ≤ newlines (bytesRead fs s.files path)) : ∃ t, load_file fs path s = .wild t := by
  have hnil : bytesRead fs s.files path ≠ [] := by
    intro hnil
    rw [hnil] at h
    cases h
  obtain ⟨c, t, ht⟩ := load_bytes_over (bytesRead fs s.files path) (cleared_reads s path) (by decide)
    (by rwa [List.length_nil, Nat.zero_add])
  have hend : load_end 128 c t = .wild t := rfl
  rw [load_file_eq, if_neg hnil, bind_of_ok (show load_bytes _ 0 0 _ = _ from ht)]
  exact ⟨t, hend⟩

end Editor

end Eke
