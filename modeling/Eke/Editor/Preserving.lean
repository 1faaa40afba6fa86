/-
Saving and loading.

What `save_file` writes is the text of the lines as long as it fits, and what `load_file` reads
is the lines of the text as long as they fit.  Between the two limits nothing is lost; beyond
them something is, and nobody is told.
-/
import Eke.Editor.Session
import Mathlib.Algebra.Order.BigOperators.Group.List

namespace Eke

variable {m l : List Byte} {ls : List (List Byte)} {data : List Byte}

/-! ### Lines and text -/

theorem text_splitOn (data : List Byte) : text (data.splitOn 10) = data := List.intercalate_splitOn 10

theorem text_length : ∀ ls : List (List Byte), (text ls).length = (ls.map List.length).sum + (ls.length - 1) := by
  intro ls
  induction ls with
  | nil => rfl
  | cons m ls ih =>
      cases ls with
      | nil =>
          rw [text_single]
          rfl
      | cons l ls =>
          have hsum : ((m :: l :: ls).map List.length).sum = m.length + ((l :: ls).map List.length).sum := by
            rw [List.map_cons, List.sum_cons]
          rw [text_cons_length, ih, hsum]
          simp only [List.length_cons]
          omega

theorem text_cut_length (ls : List (List Byte)) : (text (ls.map (List.take 73))).length =
    (ls.map fun l => (l.take 73).length).sum + (ls.length - 1) := by
  rw [text_length, List.map_map, List.length_map]
  rfl

/-- Cutting lines makes no text longer. -/
theorem text_cut_le (ls : List (List Byte)) : (text (ls.map (List.take 73))).length ≤ (text ls).length := by
  have hsum := List.sum_le_sum (l := ls) (f := fun l => (l.take 73).length) (g := List.length) fun l _ =>
    List.length_take_le' ..
  rw [text_cut_length, text_length]
  omega

/-- Lines that are cut can be told from the text. -/
theorem text_cut_iff (ls : List (List Byte)) :
    text (ls.map (List.take 73)) = text ls ↔ ∀ l ∈ ls, l.length ≤ 73 := by
  constructor
  · intro h l hl
    by_contra hlong
    have hsum := List.sum_lt_sum (l := ls) (fun l => (l.take 73).length) List.length
      (fun l _ => List.length_take_le' ..) ⟨l, hl, by rw [List.length_take]; omega⟩
    have hlen := congrArg List.length h
    rw [text_cut_length, text_length] at hlen
    omega
  · intro h
    rw [List.map_congr_left fun l hl => List.take_of_length_le (h l hl), List.map_id']

/-- A newline stands between the lines and nowhere else. -/
theorem newlines_text : ∀ ls : List (List Byte), ls ≠ [] → (∀ l ∈ ls, 10 ∉ l) → newlines (text ls) + 1 = ls.length := by
  intro ls
  induction ls with
  | nil => exact fun h => absurd rfl h
  | cons m ls ih =>
      intro _ h
      have hm : newlines m = 0 := List.count_eq_zero_of_not_mem (h m (List.mem_cons_self ..))
      cases ls with
      | nil =>
          rw [text_single, hm]
          rfl
      | cons l ls =>
          have hih := ih (List.cons_ne_nil l ls) fun k hk => h k (List.mem_cons_of_mem _ hk)
          unfold newlines at hm hih ⊢
          rw [text_cons, List.count_append, List.count_cons_self, hm, List.length_cons]
          omega

theorem mem_text {ch : Byte} : ∀ ls : List (List Byte), ch ∈ text ls → ch = 10 ∨ ∃ l ∈ ls, ch ∈ l := by
  intro ls
  induction ls with
  | nil => exact fun h => absurd h List.not_mem_nil
  | cons m ls ih =>
      intro h
      cases ls with
      | nil =>
          rw [text_single] at h
          exact Or.inr ⟨m, List.mem_cons_self .., h⟩
      | cons l ls =>
          rw [text_cons] at h
          rcases List.mem_append.mp h with h | h
          · exact Or.inr ⟨m, List.mem_cons_self .., h⟩
          rcases List.mem_cons.mp h with h | h
          · exact Or.inl h
          · exact (ih h).imp_right fun ⟨k, hk, hmem⟩ => ⟨k, List.mem_cons_of_mem _ hk, hmem⟩

/-- The lines of a text of printable lines. -/
theorem decode_text (hne : ls ≠ []) (hlen : ∀ l ∈ ls, l.length ≤ 73) (hprint : ∀ l ∈ ls, 10 ∉ l ∧ 13 ∉ l) :
    decode [] [] (text ls) = ls := by
  have hcr : (text ls).filter (· ≠ 13) = text ls := by
    refine List.filter_eq_self.mpr fun ch hch => decide_eq_true fun hcr => ?_
    subst hcr
    rcases mem_text ls hch with h | ⟨l, hl, hmem⟩
    · exact absurd h (by decide)
    · exact (hprint l hl).2 hmem
  have heq := decode_eq (text ls) [] [] List.not_mem_nil
  rw [hcr, List.take_nil, List.nil_append, List.nil_append] at heq
  rw [heq, text, List.splitOn_intercalate 10 (fun l hl => (hprint l hl).1) hne,
    List.map_congr_left fun l hl => List.take_of_length_le (hlen l hl), List.map_id']

namespace Editor

open Prog

variable {φ : Type} {s t u : Editor φ} {d : Document} {path : Path}

/-! ### Saving and loading -/

/-- A file system from which one reads what was last written. -/
structure Returns (fs : FS_API φ) : Prop where
  size : ∀ files name data, (fs.write_file files name data).1 = true →
    fs.get_size (fs.write_file files name data).2 name = data.length
  read : ∀ files name data max_bytes, (fs.write_file files name data).1 = true →
    (fs.read_file (fs.write_file files name data).2 name max_bytes).map Subtype.val = some (data.take max_bytes)

/-- The characters between the first column and the end of every line are printable. -/
def Printable (s : Editor φ) : Prop :=
  ∀ y x, 0 ≤ y → y < s.total_lines → 0 ≤ x → x < s.line_lens y →
    32 ≤ (s.lines y x).toNat ∧ (s.lines y x).toNat ≤ 126

/-- Loading the file again gives the same lines. -/
def Reloads (fs : FS_API φ) (s t : Editor φ) : Prop :=
  ∃ u, load_file (some fs) s.filename t = .ok () u ∧ u.total_lines = s.total_lines ∧
    ∀ y, 0 ≤ y → y < s.total_lines →
      u.line_lens y = s.line_lens y ∧ ∀ x, 0 ≤ x → x < s.line_lens y → u.lines y x = s.lines y x

/-- A file that is read as it is. -/
structure Stored (fs : FS_API φ) (files : φ) (path : Path) (data : List Byte) : Prop where
  size : fs.get_size files path = data.length
  read : ∀ max_bytes, (fs.read_file files path max_bytes).map Subtype.val = some (data.take max_bytes)

theorem Stored.bytesRead {fs : FS_API φ} {files : φ} (h : Stored fs files path data) (hlen : data.length ≤ 8191) :
    bytesRead (some fs) files path = data := by
  have hread := h.read (if fs.get_size files path < 8191 then fs.get_size files path else 8191)
  unfold Editor.bytesRead
  by_cases hnil : fs.get_size files path = 0
  · have hsize := h.size
    rw [hnil] at hsize
    simp only [if_pos hnil]
    exact (List.length_eq_zero_iff.mp hsize.symm).symm
  · simp only [if_neg hnil]
    cases hr : fs.read_file files path (if fs.get_size files path < 8191 then fs.get_size files path else 8191) with
    | none =>
        rw [hr] at hread
        cases hread
    | some r =>
        rw [hr] at hread
        refine (Option.some.inj hread).trans (List.take_of_length_le ?_)
        rw [h.size]
        split
        · exact Nat.le_refl _
        · exact hlen

theorem Returns.stored {fs : FS_API φ} (h : Returns fs) {files : φ} {data : List Byte}
    (hok : (fs.write_file files path data).1 = true) : Stored fs (fs.write_file files path data).2 path data :=
  ⟨h.size files path data hok, fun max_bytes => h.read files path data max_bytes hok⟩

/-- Lines that agree are the same lines. -/
theorem view_congr (htotal : u.total_lines = s.total_lines) (h : ∀ y, 0 ≤ y → y < s.total_lines →
    u.line_lens y = s.line_lens y ∧ ∀ x, 0 ≤ x → x < s.line_lens y → u.lines y x = s.lines y x) :
    (view u).lines = (view s).lines := by
  unfold view
  rw [htotal]
  refine List.map_congr_left fun y hy => ?_
  have hlt := List.mem_range.mp hy
  obtain ⟨hlen, hchars⟩ := h y (by omega) (by omega)
  unfold rowView
  rw [hlen]
  refine List.map_congr_left fun x hx => ?_
  have := List.mem_range.mp hx
  exact hchars x (by omega) (by omega)

/-- What was written is loaded again if it is the whole text. -/
theorem reloads_iff {fs : FS_API φ} (hfs : Returns fs) (h : Valid s) (hprint : Printable s)
    (hok : (fs.write_file s.files s.filename (joined (view s).lines [])).1 = true) :
    Reloads fs s (afterSave fs s (joined (view s).lines [])) ↔ FullText 0 (view s).lines := by
  have hdoc := h.holds
  have hne : (view s).lines ≠ [] := by
    intro hnil
    have := hdoc.good.y_lt
    rw [hnil] at this
    cases this
  obtain ⟨hmax, hwritten, hlost⟩ := joined_spec (view s).lines [] hne (by decide)
  rw [List.length_nil] at hwritten hlost
  have hread : bytesRead (some fs) (afterSave fs s (joined (view s).lines [])).files s.filename =
      joined (view s).lines [] := (hfs.stored hok).bytesRead (by omega)
  constructor
  · rintro ⟨u, hu, htotal, hrows⟩
    by_contra hnot
    have hless := hlost hnot
    have hfew : newlines (joined (view s).lines []) < 128 := by
      by_contra hmany
      obtain ⟨v, hv⟩ := load_file_wild (some fs) s.filename
        (s := afterSave fs s (joined (view s).lines [])) (by rw [hread]; exact Nat.le_of_not_lt hmany)
      rw [hv] at hu
      cases hu
    obtain ⟨v, hv, hdoc', -⟩ := load_file_ok (some fs) s.filename
      (s := afterSave fs s (joined (view s).lines [])) (by rwa [hread])
    rw [hu] at hv
    cases hv
    have hlines := view_congr htotal hrows
    rw [hdoc'.view, hread] at hlines
    change decode [] [] _ = _ at hlines
    have heq := decode_eq (joined (view s).lines []) [] [] List.not_mem_nil
    rw [List.take_nil, List.nil_append, List.nil_append, hlines] at heq
    have hcut := text_cut_le (((joined (view s).lines []).filter (· ≠ 13)).splitOn 10)
    rw [← heq, text_splitOn] at hcut
    have hfilter := List.length_filter_le (· ≠ 13) (joined (view s).lines [])
    omega
  · intro hw
    have hall := hwritten hw
    rw [List.nil_append] at hall
    have hchars : ∀ l ∈ (view s).lines, 10 ∉ l ∧ 13 ∉ l := by
      intro l hl
      obtain ⟨y, hy, rfl⟩ := List.mem_map.mp hl
      have hpos := List.mem_range.mp hy
      have hin : ∀ ch ∈ s.rowView y, 32 ≤ ch.toNat := by
        intro ch hch
        obtain ⟨x, hx, rfl⟩ := List.mem_map.mp hch
        have := List.mem_range.mp hx
        exact (hprint y x (by omega) (by omega) (by omega) (by omega)).1
      exact ⟨fun hc => absurd (hin _ hc) (by decide), fun hc => absurd (hin _ hc) (by decide)⟩
    have hnl := newlines_text (view s).lines hne fun l hl => (hchars l hl).1
    have hlen := hdoc.good.lines_max
    obtain ⟨u, hu, hdoc', -⟩ := load_file_ok (some fs) s.filename
      (s := afterSave fs s (joined (view s).lines [])) (by rw [hread, hall]; omega)
    rw [hread, hall] at hdoc'
    have hlines : (document (text (view s).lines)).lines = (view s).lines :=
      decode_text hne hdoc.good.line_max hchars
    refine ⟨u, hu, ?_, fun y h0 hy => ?_⟩
    · rw [hdoc'.total, hdoc.total, hlines]
    · have htot := hdoc.total
      have hrow := hdoc.row_at (j := y.toNat) (by omega)
      have hrow' := hdoc'.row_at (j := y.toNat) (by rw [hlines]; omega)
      have hsame : (document (text (view s).lines)).line y.toNat = (view s).line y.toNat := by
        rw [Document.line, Document.line, hlines]
      rw [Int.toNat_of_nonneg h0] at hrow hrow'
      rw [hsame] at hrow'
      have hl := hrow.len
      refine ⟨hrow'.len.trans hrow.len.symm, fun x hx0 hx => ?_⟩
      rw [hrow'.char hx0 (by omega), hrow.char hx0 (by omega)]

/-- A save that reports success can be undone by a load exactly if the text fits into the buffer:
into 8100 bytes, or with one newline more. -/
theorem saving_loses_nothing (fs : FS_API φ) (hfs : Returns fs) (s : Editor φ) (h : Valid s) (hprint : Printable s) :
    ∃ t, save_file (some fs) s = .ok () t ∧
      (t.status_msg = saved → (Reloads fs s t ↔ FullText 0 (view s).lines)) := by
  refine ⟨_, save_file_ok fs h.holds, fun hsaved => reloads_iff hfs h hprint ?_⟩
  by_contra hfail
  have herror : (afterSave fs s (joined (view s).lines [])).status_msg = saveError := if_neg hfail
  rw [herror] at hsaved
  exact absurd hsaved (by decide)

theorem oneFile_returns : Returns oneFile :=
  ⟨fun _ _ _ _ => rfl, fun _ _ _ _ _ => rfl⟩

theorem saving_loses_nothing_fresh : ∃ t, save_file (some oneFile) (fresh []) = .ok () t ∧
    (t.status_msg = saved → (Reloads oneFile (fresh []) t ↔ FullText 0 (view (fresh ([] : List Byte))).lines)) :=
  saving_loses_nothing oneFile oneFile_returns (fresh []) (fresh_valid []) fun _ _ _ _ h0 hx =>
    absurd hx (Int.not_lt.mpr h0)

/-- As much text as the arrays hold. -/
def filled : Editor (List Byte) :=
  { fresh [] with
    lines := fun _ x => if x = 73 then 0 else 97
    line_lens := fun _ => 73
    total_lines := 128 }

theorem filled_valid : Valid filled :=
  ⟨⟨(by decide : (1 : Int) ≤ 128), Int.le_refl 128⟩, ⟨Int.le_refl 0, (by decide : (0 : Int) < 128)⟩,
    ⟨Int.le_refl 0, (by decide : (0 : Int) ≤ 73)⟩, fun _ _ _ => ⟨(by decide : (0 : Int) ≤ 73), Int.le_refl 73⟩,
    fun _ _ _ => rfl⟩

theorem filled_printable : Printable filled := by
  intro y x _ _ _ hx
  change x < 73 at hx
  have hchar : filled.lines y x = 97 := if_neg (by omega)
  rw [hchar]
  decide

theorem filled_too_long : ¬ FullText 0 (view filled).lines := by
  have hrow : ∀ y, (filled.rowView y).length = 73 := fun y => rowView_length y
  have hlines : (view filled).lines.length = 128 := by
    rw [view, List.length_map, List.length_range]
    rfl
  have hsum : ((view filled).lines.map List.length).sum = 128 * 73 := by
    have hconst : List.length ∘ filled.rowView = fun _ => 73 := funext hrow
    rw [view, List.map_map, hconst, List.map_const', List.sum_replicate, List.length_range]
    rfl
  have hlen := text_length (view filled).lines
  rw [hsum, hlines] at hlen
  rintro (h | h | ⟨h, -⟩)
  · omega
  · rw [h, List.length_nil] at hlen
    omega
  · omega

/-- 128 lines of 73 characters are saved without an error, and not all of them come back. -/
theorem saving_loses : ¬ ∀ fs : FS_API (List Byte), Returns fs → ∀ s, Valid s → Printable s →
    ∃ t, save_file (some fs) s = .ok () t ∧ (t.status_msg = saved → Reloads fs s t) := by
  intro h
  obtain ⟨t, ht, hback⟩ := h oneFile oneFile_returns filled filled_valid filled_printable
  rw [save_file_ok oneFile filled_valid.holds] at ht
  cases ht
  exact filled_too_long ((reloads_iff oneFile_returns filled_valid filled_printable rfl).mp (hback rfl))

/-! ### Opening and saving -/

/-- Ctrl+S as the only key. -/
theorem save_session (fs : FS_API φ) (h : Holds s d) (h0 : 0 ≤ s.scroll_y) : ∃ t,
    session (some fs) [19] s = .ok true t ∧ t.written = s.written ++ [(s.filename, joined d.lines [])] := by
  obtain ⟨t, r, ht, hr, hdoc, hscroll, -, -, hwritten, hname⟩ := render_ok h h0
  have hs := hdoc.clear_status
  have hkey : key (some fs) 19 t =
      .ok true (afterSave fs { t with status_msg := [] } (joined d.lines [])) := bind_of_ok (save_file_ok fs hs)
  obtain ⟨u, r', hu, hr', -, -, -, -, hwritten', -⟩ :=
    render_ok (afterSave_holds fs hs (joined d.lines [])) hscroll
  refine ⟨u, ?_, ?_⟩
  · rw [session, bind_of_ok ht, bind_of_ok hr, bind_of_ok hkey, if_pos rfl, session, bind_of_ok hu, bind_of_ok hr']
    rfl
  · rw [hwritten', ← hwritten, ← hname]
    rfl

/-- Lines that were cut make a text that fits. -/
theorem joined_decode (hlen : data.length ≤ 8100) (hcr : 13 ∉ data) :
    joined (decode [] [] data) [] = text ((data.splitOn 10).map (List.take 73)) := by
  have hfilter : data.filter (· ≠ 13) = data :=
    List.filter_eq_self.mpr fun ch hch => decide_eq_true fun heq => hcr (heq ▸ hch)
  have heq := decode_eq data [] [] List.not_mem_nil
  rw [hfilter, List.take_nil, List.nil_append, List.nil_append] at heq
  have hne : (data.splitOn 10).map (List.take 73) ≠ [] := by
    rw [ne_eq, List.map_eq_nil_iff]
    exact List.splitOn_ne_nil 10 data
  have hcut := text_cut_le (data.splitOn 10)
  rw [text_splitOn] at hcut
  have hall := (joined_spec _ [] hne (by decide)).2.1 (Or.inl (by rw [List.length_nil]; omega))
  rw [heq, hall, List.nil_append]

theorem editor_open_eq (fs : Option (FS_API φ)) (hpath : path ≠ []) (keys : List Byte) :
    editor_open fs path keys = (load_file fs path >>= fun _ => session fs keys) := by
  rw [editor_open, if_neg hpath]

/-- A file that can be loaded is written with its lines cut. -/
theorem open_save {fs : FS_API φ} (hpath : path ≠ []) (hstored : Stored fs s.files path data)
    (hlen : data.length ≤ 8100) (hcr : 13 ∉ data) (hfew : newlines data < 128) :
    ∃ t, editor_open (some fs) path [19] s = .ok true t ∧
      t.written = s.written ++ [(path.take 63, text ((data.splitOn 10).map (List.take 73)))] := by
  have hread := hstored.bytesRead (by omega)
  obtain ⟨t, ht, hdoc, hopened⟩ := load_file_ok (some fs) path (s := s) (by rwa [hread])
  rw [hread] at hdoc
  obtain ⟨u, hu, hwritten⟩ := save_session fs hdoc (le_of_eq hopened.scroll_y.symm)
  change u.written = t.written ++ [(t.filename, joined (decode [] [] data) [])] at hwritten
  rw [joined_decode hlen hcr, hopened.written, hopened.filename] at hwritten
  refine ⟨u, ?_, hwritten⟩
  rw [editor_open_eq _ hpath, bind_of_ok ht]
  exact hu

/-- Opening a file and saving it writes the file's own bytes to the file's own name exactly if the
name has at most 63 characters, no line more than 73, and there are fewer than 128 newlines. -/
theorem open_save_preserves (fs : FS_API φ) (s : Editor φ) (path : Path) (hpath : path ≠ []) (data : List Byte)
    (hstored : Stored fs s.files path data) (hlen : data.length ≤ 8100) (hcr : 13 ∉ data) :
    (∃ b t, editor_open (some fs) path [19] s = .ok b t ∧ t.written = s.written ++ [(path, data)]) ↔
      path.length ≤ 63 ∧ newlines data < 128 ∧ ∀ l ∈ data.splitOn 10, l.length ≤ 73 := by
  have htext := text_cut_iff (data.splitOn 10)
  rw [text_splitOn] at htext
  by_cases hfew : newlines data < 128
  · obtain ⟨u, hu, hwritten⟩ := open_save hpath hstored hlen hcr hfew
    rw [hu]
    constructor
    · rintro ⟨b, v, hv, heq⟩
      cases hv
      rw [hwritten] at heq
      obtain ⟨hname, hbytes⟩ := Prod.mk.inj (List.singleton_inj.mp (List.append_cancel_left heq))
      exact ⟨List.take_eq_self_iff path |>.mp hname, hfew, htext.mp hbytes⟩
    · rintro ⟨hname, -, hlines⟩
      refine ⟨true, u, rfl, ?_⟩
      rw [hwritten, List.take_of_length_le hname, htext.mpr hlines]
  · obtain ⟨t, ht⟩ := load_file_wild (some fs) path (s := s) (by
      rw [hstored.bytesRead (by omega)]
      omega)
    rw [editor_open_eq _ hpath, bind_of_wild ht]
    constructor
    · rintro ⟨b, v, hv, -⟩
      cases hv
    · exact fun h => absurd h.2.1 hfew

theorem oneFile_stored (file : List Byte) (path : Path) : Stored oneFile file path file :=
  ⟨rfl, fun _ => rfl⟩

theorem open_save_preserves_line : (∃ b t, editor_open (some oneFile) [97] [19] (fresh [98, 10]) = .ok b t ∧
    t.written = (fresh ([98, 10] : List Byte)).written ++ [([97], [98, 10])]) ↔
      ([97] : Path).length ≤ 63 ∧ newlines [98, 10] < 128 ∧
        ∀ l ∈ ([98, 10] : List Byte).splitOn 10, l.length ≤ 73 :=
  open_save_preserves oneFile (fresh [98, 10]) [97] (by decide) [98, 10] (oneFile_stored _ _) (by decide) (by decide)

/-- A line of 74 characters comes back with 73. -/
theorem open_save_cuts : ¬ ∀ (fs : FS_API (List Byte)) (s : Editor (List Byte)) (path : Path), path ≠ [] →
    ∀ data, Stored fs s.files path data → data.length ≤ 8100 → 13 ∉ data →
    ∃ b t, editor_open (some fs) path [19] s = .ok b t ∧ t.written = s.written ++ [(path, data)] := by
  intro h
  have hlen : (List.replicate 74 (97 : Byte)).length = 74 := List.length_replicate
  have hno : ∀ c : Byte, c ≠ 97 → c ∉ List.replicate 74 (97 : Byte) := fun c hc hmem =>
    hc (List.eq_of_mem_replicate hmem)
  have hpath : ([97] : Path) ≠ [] := List.cons_ne_nil 97 []
  have hstored := oneFile_stored (List.replicate 74 97) [97]
  have hcr := hno 13 (by decide)
  have hfew : newlines (List.replicate 74 97) < 128 := by
    rw [newlines, List.count_eq_zero_of_not_mem (hno 10 (by decide))]
    decide
  obtain ⟨b, t, ht, hwritten⟩ := h oneFile (fresh (List.replicate 74 97)) [97] hpath _ hstored (by omega) hcr
  obtain ⟨u, hu, hcut⟩ := open_save (s := fresh (List.replicate 74 97)) hpath hstored (by omega) hcr hfew
  rw [hu] at ht
  cases ht
  rw [hcut] at hwritten
  obtain ⟨-, hbytes⟩ := Prod.mk.inj (List.singleton_inj.mp (List.append_cancel_left hwritten))
  have hshort := text_cut_iff ((List.replicate 74 (97 : Byte)).splitOn 10)
  rw [text_splitOn, List.splitOn_eq_singleton (hno 10 (by decide))] at hshort
  rw [List.splitOn_eq_singleton (hno 10 (by decide))] at hbytes
  have := hshort.mp hbytes _ (List.mem_singleton_self _)
  omega

end Editor

end Eke
