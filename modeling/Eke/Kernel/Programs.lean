/-
From a source file to a running program.

`compile_file` reads a file, takes it through the lexer, the parser, the semantic analysis and the code
generator, and writes what comes out under another name; `cmd_run` reads that file into free pages and
calls the address its header gives.  The passes, the file system and the processor are those of the other
modules, put together here as the source puts them together: what a file holds when it is compiled is
what its program means, and what comes back from the program that is run is that meaning.

What the compiler prints is left out, and so is its arena once the source is in it: the passes are taken to
have the memory they ask for.
-/
import Mathlib.Data.List.TakeWhile
import Eke.Compiler.Header
import Eke.Compiler.Lexer
import Eke.Compiler.Preservation
import Eke.Compiler.Sema
import Eke.Compiler.Arena
import Eke.Fs.Refinement
import Eke.Kernel.FaultIsolation

namespace Eke

/-- The static variables of the passes. -/
structure Compiler where
  parser : Parser
  current_function : Node
  gen : Gen

namespace Compiler

open Prog Files Gen

/-- The trees of a program. -/
abbrev trees (P : Parser) : List Node := P.global_table.map Globalentry.p

/-! ### `compile_c_code` and `compile_file` -/

section

variable (A : Addresses) (fuel : Nat)

/-- `compile_c_code`: the binary and its size, or nothing where it says -1. -/
def compile_c_code (src_text : Name) (mod_name : Option Name) (mod_type : BitVec 32) :
    Prog Compiler (Option (Store × Nat)) := fun k =>
  match Lexer.init_lexer src_text with
  | none => .wild k
  | some toks =>
    match Parser.parse fuel (Lexer.texts src_text toks) k.parser with
    | .exit _ P => .ok none { k with parser := P }
    | .wild P => .wild { k with parser := P }
    | .more P => .more { k with parser := P }
    | .ok () P =>
      match Sema.sema_run_global_analysis P k.current_function with
      | .exit _ n => .ok none { k with parser := P, current_function := n }
      | .wild n => .wild { k with parser := P, current_function := n }
      | .more n => .more { k with parser := P, current_function := n }
      | .ok () n =>
        let bin := codegen_x86_emit A (trees P) mod_name mod_type k.gen
        .ok (if bin.2.1 = 0 then none else some (bin.1, bin.2.1)) ⟨P, n, bin.2.2⟩

/-- `comp_calloc(1, file_sz + 1)` in the empty arena. -/
def src_buf (file_sz : Nat) : Option Store :=
  (Arena.comp_calloc ⟨fun _ => 0, 0⟩ 1 (BitVec.ofNat 64 (file_sz + 1))).1.map fun _ _ => 0

/-- A C string as the lexer sees it. -/
def chars (s : List Byte) : Name := s.map fun b => Char.ofNat b.toNat

/-- `compile_file` up to the call of `write_file`; nothing where it has said -1 before. -/
def compile_source (gk_fs : Bool) (src_path : CStr) (mod_name : Option Name) (mod_type : BitVec 32) :
    Prog (Compiler × Sys) (Option (Store × Nat)) := fun (k, s) =>
  if gk_fs = false then .ok none (k, s)
  else
    let file_sz := eke_fs_get_size s (some src_path)
    if file_sz = 0 then .ok none (k, s)
    else
      let r := eke_fs_read_file s (some src_path) (src_buf file_sz) file_sz
      let read_bytes := r.1
      let s := r.2.2
      if read_bytes < 0 then .ok none (k, s)
      else
        let src_text := chars (cstr (r.2.1.getD fun _ => 0) 0 read_bytes.toNat)
        match compile_c_code A fuel src_text mod_name mod_type k with
        | .ok out k => .ok out (k, s)
        | .exit code k => .exit code (k, s)
        | .wild k => .wild (k, s)
        | .more k => .more (k, s)

/-- `compile_file`. -/
def compile_file (gk_fs : Bool) (src_path out_mod_path : CStr) (mod_name : Option Name)
    (mod_type : BitVec 32) : Prog (Compiler × Sys) Int := fun ks =>
  match compile_source A fuel gk_fs src_path mod_name mod_type ks with
  | .ok none ks => .ok (-1) ks
  | .ok (some (out_bin, out_len)) (k, s) =>
    let w := eke_fs_write_file s (some out_mod_path) (some out_bin) out_len
    .ok (if w.1 ≠ 0 then -1 else 0) (k, w.2)
  | .exit code ks => .exit code ks
  | .wild ks => .wild ks
  | .more ks => .more ks

end

/-- What the lexer gets of a file: the bytes in front of the first zero. -/
def sourceText (data : List Byte) : Name := chars (data.takeWhile (· ≠ 0))

/-- The front end accepts the file, and the parser stops in `P`. -/
def Accepts (fuel : Nat) (k : Compiler) (data : List Byte) (P : Parser) : Prop :=
  ∃ toks, Lexer.init_lexer (sourceText data) = some toks ∧
    Parser.parse fuel (Lexer.texts (sourceText data) toks) k.parser = .ok () P ∧
    ∃ n, Sema.sema_run_global_analysis P k.current_function = .ok () n

/-- The parser reads one program in a file. -/
theorem Accepts.unique {fuel : Nat} {k : Compiler} {data : List Byte} {P P' : Parser}
    (h : Accepts fuel k data P) (h' : Accepts fuel k data P') : P = P' := by
  obtain ⟨toks, hlex, hparse, -⟩ := h
  obtain ⟨toks', hlex', hparse', -⟩ := h'
  obtain rfl : toks = toks' := Option.some.inj (hlex.symm.trans hlex')
  exact (Out.ok.inj (hparse.symm.trans hparse')).2

/-- The binary of the program the parser has read. -/
def binary (A : Addresses) (P : Parser) (mod_name : Option Name) (mod_type : BitVec 32) (g : Gen) :
    List Byte :=
  let bin := codegen_x86_emit A (trees P) mod_name mod_type g
  (List.range bin.2.1).map bin.1

variable {A : Addresses} {fuel d T : Nat} {s s' s₁ : Sys} {m : Files} {k k' k₁ : Compiler} {src out : CStr}
  {mod_name : Option Name} {mod_type : BitVec 32} {P : Parser} {data : List Byte}

/-! ### The files -/

theorem compile_c_code_ok {text : Name} {r : Option (Store × Nat)}
    (h : compile_c_code A fuel text mod_name mod_type k = .ok r k') : r = none ∨
      ∃ toks P n, Lexer.init_lexer text = some toks ∧
        Parser.parse fuel (Lexer.texts text toks) k.parser = .ok () P ∧
        Sema.sema_run_global_analysis P k.current_function = .ok () n ∧
        r = some ((codegen_x86_emit A (trees P) mod_name mod_type k.gen).1,
          (codegen_x86_emit A (trees P) mod_name mod_type k.gen).2.1) := by
  unfold compile_c_code at h
  split at h
  · cases h
  · rename_i toks hlex
    split at h
    · exact Or.inl (Out.ok.inj h).1.symm
    · cases h
    · cases h
    · rename_i P hparse
      split at h
      · exact Or.inl (Out.ok.inj h).1.symm
      · cases h
      · cases h
      · rename_i n hsema
        have hr := (Out.ok.inj h).1
        split at hr
        · exact Or.inl hr.symm
        · exact Or.inr ⟨toks, P, n, hlex, hparse, hsema, hr.symm⟩

/-- The C string in a buffer that holds a file. -/
theorem cstr_file {buf : Store} : ∀ {data : List Byte} {a : Nat},
    (∀ j (h : j < data.length), buf (a + j) = data[j]) →
    cstr buf a data.length = data.takeWhile (· ≠ 0) := by
  intro data
  induction data with
  | nil => exact fun _ => rfl
  | cons b data ih =>
      intro a h
      have hb : buf a = b := h 0 (Nat.zero_lt_succ _)
      have hrest := ih (a := a + 1) fun j hj => by
        have := h (j + 1) (Nat.succ_lt_succ hj)
        rw [Nat.add_assoc, Nat.add_comm 1]
        exact this
      rw [List.length_cons, cstr, hb, hrest]
      by_cases hzero : b = 0
      · rw [if_pos hzero, hzero]
        rfl
      · rw [if_neg hzero, List.takeWhile_cons_of_pos (by simpa using hzero)]

theorem size_lt (hs : Stands d T s m) (hdata : m src = some data) : data.length < 2 ^ 32 := by
  have hg := hs.sound.good
  rw [← hs.same] at hdata
  rcases slot_cases s d src with hnone | ⟨i, e, he, hname⟩
  · rw [fileOf_none hg.named hnone] at hdata
    cases hdata
  · rw [fileOf_slot hg.named hs.distinct he hname] at hdata
    rw [← Option.some.inj hdata, contents_length, ← (slotAt_some he).2.1]
    exact Store.le_lt 4 _

/-- The arena has room for a source of less than 512 KB. -/
theorem src_buf_some {n : Nat} {buf : Store} (hn : n < 2 ^ 32) (h : src_buf n = some buf) : n < 524288 := by
  unfold src_buf at h
  have hsize : (BitVec.ofNat 64 (n + 1)).toNat = n + 1 := by
    rw [BitVec.toNat_ofNat]
    omega
  have hone : (1 : BitVec 64).toNat * (BitVec.ofNat 64 (n + 1)).toNat = n + 1 := by
    rw [hsize]
    exact Nat.one_mul _
  rcases Arena.calloc_cases (a := ⟨fun _ => 0, 0⟩) 1 (BitVec.ofNat 64 (n + 1)) (by decide)
    (by rw [hone]; unfold Arena.LARGEST; omega) with ⟨-, hno⟩ | ⟨hle, -⟩
  · rw [hno] at h
    cases h
  · rw [hone] at hle
    have := (Arena.le_roundUp (n + 1)).1
    have hzero : ((⟨fun _ => 0, 0⟩ : Arena).comp_arena_offset).toNat = 0 := rfl
    omega

/-- The file is read, and compiled. -/
theorem compile_source_reads (hs : Stands d T s m) (hdata : m src = some data) (hpos : data.length ≠ 0)
    {buf : Store} (hbuf : src_buf data.length = some buf) (hpages : ReadOk s src) :
    compile_source A fuel true src mod_name mod_type (k, s) =
      match compile_c_code A fuel (sourceText data) mod_name mod_type k with
      | .ok out k => .ok out (k, (eke_fs_read_file s (some src) (some buf) data.length).2.2)
      | .exit code k => .exit code (k, (eke_fs_read_file s (some src) (some buf) data.length).2.2)
      | .wild k => .wild (k, (eke_fs_read_file s (some src) (some buf) data.length).2.2)
      | .more k => .more (k, (eke_fs_read_file s (some src) (some buf) data.length).2.2) := by
  have g := hs.sound.good
  have hlt := src_buf_some (size_lt hs hdata) hbuf
  have hsize : eke_fs_get_size s (some src) = data.length := by
    rw [get_size_eq g.mounted.buffers.table_ne (d := d), hs.same, hdata]
    rfl
  obtain ⟨hcode, hbytes⟩ := Prod.mk.inj (read_file_eq g hpages buf data.length)
  simp only [hs.same, hdata, Nat.min_self] at hcode hbytes
  rw [toInt_of_lt (by omega)] at hcode
  have htext : chars (cstr ((some fun x => if x < data.length then data.getD x 0 else buf x).getD
      fun _ => 0) 0 (data.length : Int).toNat) = sourceText data := by
    rw [Option.getD_some, Int.toNat_natCast, cstr_file fun j hj => ?_]
    · rfl
    · rw [Nat.zero_add, if_pos hj, List.getD_eq_getElem _ _ hj]
  unfold compile_source
  dsimp only
  rw [if_neg (by decide), hsize, if_neg hpos, hbuf, hcode, hbytes, if_neg (by omega), htext]

/-- There is no file, or no room for it. -/
theorem compile_source_fails {gk_fs : Bool} (h : gk_fs = false ∨ eke_fs_get_size s (some src) = 0 ∨
    src_buf (eke_fs_get_size s (some src)) = none) :
    compile_source A fuel gk_fs src mod_name mod_type (k, s) = .ok none (k, s) := by
  unfold compile_source
  dsimp only
  split
  · rfl
  rename_i hfs
  split
  · rfl
  rename_i hsize
  rw [(h.resolve_left hfs).resolve_left hsize, read_null (Or.inr rfl),
    if_pos (show (-1 : Int) < 0 by decide)]

/-- Up to the binary nothing is written. -/
theorem compile_source_ok {gk_fs : Bool} {r : Option (Store × Nat)} (hs : Stands d T s m)
    (htame : ReadTailSafe s src) (hpages : ReadOk s src)
    (h : compile_source A fuel gk_fs src mod_name mod_type (k, s) = .ok r (k₁, s₁)) : Stands d T s₁ m ∧
      (r = none ∨ ∃ data P, m src = some data ∧ Accepts fuel k data P ∧
        r = some ((codegen_x86_emit A (trees P) mod_name mod_type k.gen).1,
          (codegen_x86_emit A (trees P) mod_name mod_type k.gen).2.1)) := by
  have g := hs.sound.good
  by_cases hfails : gk_fs = false ∨ eke_fs_get_size s (some src) = 0 ∨
      src_buf (eke_fs_get_size s (some src)) = none
  · rw [compile_source_fails hfails] at h
    obtain ⟨rfl, hks⟩ := Out.ok.inj h
    obtain ⟨-, rfl⟩ := Prod.mk.inj hks
    exact ⟨hs, Or.inl rfl⟩
  rw [not_or, not_or, Bool.not_eq_false] at hfails
  obtain ⟨rfl, hsize, hbuf⟩ := hfails
  obtain ⟨buf, hbuf⟩ := Option.ne_none_iff_exists'.mp hbuf
  rw [get_size_eq g.mounted.buffers.table_ne (d := d), hs.same] at hsize hbuf
  cases hdata : m src with
  | none =>
      rw [hdata] at hsize
      exact absurd rfl hsize
  | some data =>
      rw [hdata] at hsize hbuf
      rw [compile_source_reads hs hdata hsize hbuf hpages] at h
      have hstands := stands_kept hs (read_step g htame buf data.length)
      split at h
      · rename_i hcompile
        obtain ⟨rfl, hks⟩ := Out.ok.inj h
        obtain ⟨-, rfl⟩ := Prod.mk.inj hks
        refine ⟨hstands, ?_⟩
        rcases compile_c_code_ok hcompile with hnone | ⟨toks, P, n, hlex, hparse, hsema, hr⟩
        · exact Or.inl hnone
        · exact Or.inr ⟨data, P, rfl, ⟨toks, hlex, hparse, n, hsema⟩, hr⟩
      · cases h
      · cases h
      · cases h

/-- The write of `compile_file`, if it gets to it, keeps off the defects of the file system. -/
def WriteAllowed (A : Addresses) (fuel : Nat) (gk_fs : Bool) (src out : CStr) (mod_name : Option Name)
    (mod_type : BitVec 32) (k : Compiler) (s : Sys) : Prop :=
  ∀ bin len k₁ s₁,
    compile_source A fuel gk_fs src mod_name mod_type (k, s) = .ok (some (bin, len)) (k₁, s₁) →
    (Op.write (some out) (some bin) len).Tame s₁ ∧
      Files.Spared s₁ out (eke_fs_write_file s₁ (some out) (some bin) len).1

/--
**A compilation changes one file or none.**  If `compile_file` says -1 then all files are as they were;
if it says 0 then the front end accepts the source, and the file written is the binary of its program.
-/
theorem compile_file_transacts {gk_fs : Bool} {r : Int} (hs : Stands d T s m) (htame : ReadTailSafe s src)
    (hpages : ReadOk s src) (hout : 1 ≤ out.chars.length ∧ out.chars.length ≤ 31)
    (hwrite : WriteAllowed A fuel gk_fs src out mod_name mod_type k s)
    (h : compile_file A fuel gk_fs src out mod_name mod_type (k, s) = .ok r (k', s')) :
    r = -1 ∧ Stands d T s' m ∨
      r = 0 ∧ ∃ data P, m src = some data ∧ Accepts fuel k data P ∧
        Stands d T s' (m.put out (some (binary A P mod_name mod_type k.gen))) := by
  unfold compile_file at h
  split at h
  · rename_i ks hsource
    obtain ⟨hr, rfl⟩ := Out.ok.inj h
    exact Or.inl ⟨hr.symm, (compile_source_ok hs htame hpages hsource).1⟩
  · rename_i bin len k₁ s₁ hsource
    obtain ⟨htame', hspared⟩ := hwrite bin len k₁ s₁ hsource
    obtain ⟨hstands, hnone | ⟨data, P, hdata, haccepts, hbin⟩⟩ := compile_source_ok hs htame hpages hsource
    · cases hnone
    obtain ⟨rfl, rfl⟩ := Prod.mk.inj (Option.some.inj hbin)
    have hlen := binary_len A (trees P) mod_name mod_type k.gen
    have hshort : (Op.write (some out) (some (codegen_x86_emit A (trees P) mod_name
        mod_type k.gen).1) (codegen_x86_emit A (trees P) mod_name mod_type k.gen).2.1).Short :=
      ⟨fun p hp => Option.some.inj hp ▸ hout, Nat.lt_of_le_of_lt hlen (by decide)⟩
    obtain ⟨hr, hks⟩ := Out.ok.inj h
    obtain ⟨-, rfl⟩ := Prod.mk.inj hks
    obtain ⟨m', hallows, hstands'⟩ := write_allowed hstands hshort htame' hspared
    rcases hallows.written with ⟨hok, rfl⟩ | ⟨hfailed, rfl⟩
    · rw [if_neg fun hc => hc hok] at hr
      exact Or.inr ⟨hr.symm, data, P, hdata, haccepts, hstands'⟩
    · rw [if_pos hfailed] at hr
      exact Or.inl ⟨hr.symm, hstands'⟩
  · cases h
  · cases h
  · cases h

/-! ### The header -/

/-- The word that `cmd_run` looks for. -/
theorem header_magic (mod_name : Option Name) (mod_type : BitVec 32) (gt : List Node) (g : Gen) :
    (codegen_x86_emit A gt mod_name mod_type g).1.le 0 4 = MAGICNUM := by
  unfold codegen_x86_emit write_header
  simp only
  rw [Store.le_setLe_out (by omega), Store.le_setLe_out (by omega), Store.le_setLe_out (by omega),
    Store.le_setLe_out (by omega)]
  refine (Store.le_congr fun x _ hx => if_neg (by omega)).trans ?_
  exact Store.le_setLe_of_lt (by decide)

def mainName : Name := ['m', 'a', 'i', 'n']

/-- A call that means something, or that never ends, is one of a function that is defined. -/
theorem defined_of_meaning {gt : List Node} {f : Name}
    (h : (∃ n v, (meaning cValues gt n).call f [] = .is v) ∨
      ∀ n, (meaning cValues gt n).call f [] = .more) :
    ∃ d, definition gt f = some d := by
  cases hd : definition gt f with
  | some d => exact ⟨d, rfl⟩
  | none =>
      have hwild : ∀ n, (meaning cValues gt (n + 1)).call f [] = .wild := fun n => by
        show call_means cValues (meaning cValues gt n) gt f [] = .wild
        unfold call_means
        rw [hd]
      rcases h with ⟨n, v, hv⟩ | hmore
      · cases n with
        | zero => cases hv
        | succ n =>
            rw [hwild] at hv
            cases hv
      · have h1 := hmore 1
        rw [hwild] at h1
        cases h1

/-- The header of a module leads to `main`. -/
theorem header_main (mod_name : Option Name) (mod_type : BitVec 32) {gt : List Node} {g : Gen} {d : Node}
    (h : Fits (listing A gt))
    (hd : definition gt mainName = some d)
    (hle : (moduleSymbols A gt g).func mainName ≤ (codegen_x86_emit A gt mod_name mod_type g).2.1) :
    (codegen_x86_emit A gt mod_name mod_type g).1.le 40 4 = (moduleSymbols A gt g).func mainName := by
  obtain ⟨pre, post, rfl, hname, -⟩ := definition_split hd
  have hne := (func_place (g := g) h.roomy hname).1
  have hoff : nameOffset (module_code A (pre ++ d :: post) g) entryNames =
      (module_code A (pre ++ d :: post) g).find_func_offset mainName := if_pos hne
  have hnat : (module_code A (pre ++ d :: post) g).find_func_offset mainName =
      (((module_code A (pre ++ d :: post) g).find_func_offset mainName).toNat : Int) := by
    refine (Int.toNat_of_nonneg ?_).symm
    unfold find_func_offset at hne ⊢
    split
    · exact Int.natCast_nonneg _
    · rename_i hnone
      rw [hnone] at hne
      exact absurd rfl hne
  have hheader := (header_holds A (pre ++ d :: post) mod_name mod_type g
    ⟨_, Nat.le_trans hle (binary_len A _ mod_name mod_type g), hoff.trans hnat⟩).1
  exact Int.ofNat.inj (hheader.trans (hoff.trans hnat))

/-- A binary has a header. -/
theorem binary_full (A : Addresses) (gt : List Node) (mod_name : Option Name) (mod_type : BitVec 32)
    (g : Gen) : 64 ≤ (codegen_x86_emit A gt mod_name mod_type g).2.1 := by
  have hmin : 64 ≤ (module_code A gt g).code_len := by
    rw [module_code_eq]
    exact (((emit_items_sited _ g.reset).trans (nop_align_sited 7 _)).trans emit_bytes_sited).len
  rw [(codegen_patched A gt mod_name mod_type g).2]
  exact hmin

/-- What the front end accepts is compiled. -/
theorem compile_c_code_accepts (A : Addresses) (mod_name : Option Name) (mod_type : BitVec 32)
    (h : Accepts fuel k data P) : ∃ k', compile_c_code A fuel (sourceText data) mod_name mod_type k =
    .ok (some ((codegen_x86_emit A (trees P) mod_name mod_type k.gen).1,
      (codegen_x86_emit A (trees P) mod_name mod_type k.gen).2.1)) k' := by
  obtain ⟨toks, hlex, hparse, n, hsema⟩ := h
  have hfull := binary_full A (trees P) mod_name mod_type k.gen
  have hne : (codegen_x86_emit A (trees P) mod_name mod_type k.gen).2.1 ≠ 0 := by omega
  refine ⟨⟨P, n, (codegen_x86_emit A (trees P) mod_name mod_type k.gen).2.2⟩, ?_⟩
  unfold compile_c_code
  simp only [hlex, hparse, hsema, if_neg hne]

theorem binary_length {g : Gen} : (binary A P mod_name mod_type g).length =
    (codegen_x86_emit A (trees P) mod_name mod_type g).2.1 := by
  rw [binary, List.length_map, List.length_range]

end Compiler

namespace Programs

open Files Compiler X86

/-! ### `cmd_run` on the file system -/

theorem before_zero (l : List Byte) : ∀ c ∈ l.takeWhile (· ≠ 0), c ≠ 0 := fun c hc => by
  have := List.mem_takeWhile_imp hc
  simpa using this

/-- The path the shell hands on. -/
def pathOf (name : List Char) : CStr where
  chars := (name.map fun c => BitVec.ofNat 8 c.toNat).takeWhile (· ≠ 0)
  nonzero := before_zero (name.map fun c => BitVec.ofNat 8 c.toNat)

/-- The pages `cmd_run` asks for. -/
def pages (sz : Nat) : Int := toInt ((sz + 4095) % 2 ^ 64 / 4096)

/-- The file system and the page allocator as `cmd_run` finds them. -/
def loader (s : Sys) : Loader where
  get_size name := eke_fs_get_size s (some (pathOf name))
  alloc_page n := (s.pmm.alloc_page n).1
  read_file name mem sz :=
    let s := { s with pmm := (s.pmm.alloc_page (pages sz)).2 }
    let r := eke_fs_read_file s (some (pathOf name)) (some fun j => s.mem (mem + j)) sz
    (r.1, r.2.2.mem.blit mem sz (r.2.1.getD fun _ => 0) 0)

/-- The pages the program is read into, and the memory when it is called. -/
def image (s : Sys) (name : List Char) : Nat × Store :=
  let sz := (loader s).get_size name
  let mem := (loader s).alloc_page (pages sz)
  (mem, ((loader s).read_file name mem sz).2)

variable {s : Sys} {m : Files} {d T entry : Nat} {args : List Char} {data : List Byte}

/-- Pages that are handed out leave the files alone. -/
theorem stands_alloc (hs : Stands d T s m) (n : Nat) : Stands d T (s.alloc_page n).2 m := by
  have g := hs.sound.good
  have heq := alloc_page_eq g.mounted n
  have hvol : volume (s.alloc_page n).2 d = volume s d := by
    rw [heq]
    rfl
  refine stands_kept hs ⟨⟨alloc_mounted g.mounted n, ?_, ?_, ?_⟩, ?_, ?_, ?_, ?_, ?_, ?_, ?_⟩
  · rw [hvol]
    exact g.inv
  · rw [hvol]
    exact g.short
  · rw [hvol]
    exact g.counts
  · rw [heq]
  · rw [heq]
  · intro j
    rw [hvol]
  · intro b _
    rw [hvol]
  · rw [hvol]
  · rw [heq]
  · intro x _
    rw [heq]

/-- A read that does not fail had its temporary buffer. -/
theorem read_ok {p : CStr} {buf : Store} {k : Nat} (g : Good s d T) (hfile : fileOf s d p = some data)
    (hpos : 0 < min data.length k) (h : 0 ≤ (eke_fs_read_file s (some p) (some buf) k).1) : ReadOk s p := by
  intro i hi hzero
  have hsize : FileEntry.size s.mem (s.entry i) = data.length := by
    unfold fileOf at hfile
    rw [hi] at hfile
    rw [← Option.some.inj hfile, List.length_map, List.length_range]
  unfold eke_fs_read_file at h
  rw [g.mounted.active] at h
  dsimp only at h
  rw [if_neg g.mounted.buffers.table_ne, hi] at h
  dsimp only at h
  rw [hsize, if_neg (by omega), if_pos hzero] at h
  exact absurd h (show ¬ (0 : Int) ≤ -1 by decide)

/-- The pages of a program hold it, and end before the address space does. -/
theorem pages_room {p : Pmm} {sz : Nat} (hpos : 0 < sz) (hsz : sz < 2 ^ 31)
    (hmem : (p.alloc_page (pages sz)).1 ≠ 0) : (p.alloc_page (pages sz)).1 + sz < 2 ^ 64 := by
  have hpages : pages sz = ((sz + 4095) / 4096 : Nat) := by
    unfold pages
    rw [Nat.mod_eq_of_lt (by omega), toInt_of_lt (by omega)]
  rcases p.alloc_page_spec (pages sz) with ⟨hzero, -⟩ | ⟨r, ha⟩
  · exact absurd hzero hmem
  · obtain ⟨-, hlast⟩ := ha.free ((sz + 4095) / 4096 - 1) (by rw [hpages]; omega)
    rw [ha.addr_eq]
    unfold MAX_PAGES BM_SIZE at hlast
    omega

/-- What `cmd_run` calls, when the file is so long, the pages are there and the read left this. -/
theorem cmd_run_eq {fs : Loader} {name : List Char} {sz base : Nat} {r : Int × Store}
    (hname : args.dropWhile (· == ' ') = name) (hsize : fs.get_size name = sz)
    (hbase : fs.alloc_page (pages sz) = base) (hread : fs.read_file name base sz = r) :
    cmd_run (some fs) (some args) = if name = [] ∨ sz = 0 ∨ base = 0 ∨ r.1 < 0 then none
      else some (if r.2.le base 4 = MAGICNUM then base + r.2.le (base + 40) 4 else base) := by
  subst hname hsize hbase hread
  rw [ite_or, ite_or, ite_or, apply_ite some]
  rfl

/-- What `cmd_run` calls: the file is in its pages, and its header, if it has one, gives the entry point. -/
theorem run_spec (hs : Stands d T s m) (hdata : m (pathOf (args.dropWhile (· == ' '))) = some data)
    (hlen : data.length < 2 ^ 31) (hrun : cmd_run (some (loader s)) (some args) = some entry) :
    let r := image s (args.dropWhile (· == ' '))
    r.1 + data.length < 2 ^ 64 ∧ (∀ j (hj : j < data.length), r.2 (r.1 + j) = data[j]) ∧
      entry = if r.2.le r.1 4 = MAGICNUM then r.1 + r.2.le (r.1 + 40) 4 else r.1 := by
  generalize hname : args.dropWhile (· == ' ') = name at *
  have hsize : (loader s).get_size name = data.length := by
    show eke_fs_get_size s (some (pathOf name)) = data.length
    rw [get_size_eq hs.sound.good.mounted.buffers.table_ne (d := d), hs.same, hdata]
    rfl
  generalize hbase : (loader s).alloc_page (pages data.length) = base
  generalize hread : (loader s).read_file name base data.length = r
  have himage : image s name = (base, r.2) := by
    simp only [image, hsize, hbase, hread]
  rw [cmd_run_eq hname hsize hbase hread] at hrun
  split at hrun
  · cases hrun
  rename_i hgoes
  obtain ⟨-, hpos, hmem, hcode⟩ : name ≠ [] ∧ data.length ≠ 0 ∧ base ≠ 0 ∧ ¬ r.1 < 0 := by
    rw [not_or, not_or, not_or] at hgoes
    exact hgoes
  rw [himage]
  refine ⟨?_, fun j hj => ?_, (Option.some.inj hrun).symm⟩
  · rw [← hbase] at hmem ⊢
    exact pages_room (by omega) hlen hmem
  · -- the file system finds the file after the pages were handed out
    have hs₁ : Stands d T { s with pmm := (s.pmm.alloc_page (pages data.length)).2 } m := by
      have hkept := stands_alloc hs ((data.length + 4095) % 2 ^ 64 / 4096)
      rw [alloc_page_eq hs.sound.good.mounted] at hkept
      exact hkept
    rw [← hread] at hcode ⊢
    have hfile := (hs₁.same (pathOf name)).trans hdata
    have hok := read_ok hs₁.sound.good hfile (by omega) (Int.not_lt.mp hcode)
    have hbytes := (Prod.mk.inj (read_file_eq hs₁.sound.good hok (fun j => s.mem (base + j)) data.length)).2
    rw [hfile] at hbytes
    show Store.blit _ base data.length ((eke_fs_read_file
      { s with pmm := (s.pmm.alloc_page (pages data.length)).2 } (some (pathOf name))
      (some fun j => s.mem (base + j)) data.length).2.1.getD fun _ => 0) 0 (base + j) = _
    rw [Store.blit_in (by omega) (by omega), hbytes]
    simp [hj]

/-! ### Compiled programs -/

/-- The processor has called `entry`: the binary is there as it is in the memory `st`, and the stack lies
apart from it. -/
structure Called {bin : Store} {len : Nat} (M : Setting bin len) (entry : Nat) (st : Store) (S : Nat)
    (c : Cpu) : Prop where
  bytes : ∀ x, x < len → c.mem (M.base + x) = st (M.base + x)
  rip : c.rip = BitVec.ofNat 64 entry
  rsp : c.rsp.toNat = S
  room : M.lo + M.room ≤ S + 8
  top : S + 8 ≤ M.hi

section

variable {A : Addresses} {P : Parser} {mod_name : Option Name} {mod_type : BitVec 32} {g : Gen} {S : Nat}
  {c : Cpu}

/-- What a processor does that called a program: it comes back with the value of `main`, or, if `main` never
ends, it never comes back, unless the stack runs low. -/
def RunsMain (P : Parser) {bin : Store} {len : Nat} (M : Setting bin len) (S : Nat) (c : Cpu) : Prop :=
  (∀ n v, (meaning cValues (trees P) n).call mainName [] = .is v → Attains Cpu.step (fun d => M.Low d ∨
    ∃ w, CameBack M S 0 c w d ∧ ∀ z, v = some z → d.rax.toInt = z) c) ∧
  ((∀ n, (meaning cValues (trees P) n).call mainName [] = .more) → ∀ n, Leads (upTo S) n M.Low c)

/-- A binary that `cmd_run` has read from a file, and calls. -/
theorem binary_runs (hs : Stands d T s m)
    (hdata : m (pathOf (args.dropWhile (· == ' '))) = some (binary A P mod_name mod_type g))
    (hrun : cmd_run (some (loader s)) (some args) = some entry) (hfits : Fits (listing A (trees P)))
    (hclean : noTest (listing A (trees P)) ∨ ∀ i, (g.fixups i).is_func_call = false)
    (M : Setting (codegen_x86_emit A (trees P) mod_name mod_type g).1
      (codegen_x86_emit A (trees P) mod_name mod_type g).2.1)
    (hbase : M.base = (image s (args.dropWhile (· == ' '))).1) (hframes : ∀ q ∈ trees P, q.FrameFits M.room)
    (hcalled : Called M entry (image s (args.dropWhile (· == ' '))).2 S c) : RunsMain P M S c := by
  have hmax := binary_len A (trees P) mod_name mod_type g
  have hbuf : CODE_BUF_SIZE = 65536 := rfl
  have hlength := @binary_length A mod_name mod_type P g
  obtain ⟨hroom, hbytes, hentry⟩ := run_spec hs hdata (by omega) hrun
  generalize image s (args.dropWhile (· == ' ')) = r at *
  have hst := compiled_standing A (trees P) mod_name mod_type g hfits hclean M hframes
  have hbytes : ∀ x, x < (codegen_x86_emit A (trees P) mod_name mod_type g).2.1 →
      r.2 (r.1 + x) = (codegen_x86_emit A (trees P) mod_name mod_type g).1 x := fun x hx => by
    rw [hbytes x (by omega)]
    simp [binary]
  have hloaded : Loaded (codegen_x86_emit A (trees P) mod_name mod_type g).1
      (codegen_x86_emit A (trees P) mod_name mod_type g).2.1 M.base c.mem :=
    ⟨fun x hx => by rw [hcalled.bytes x hx, hbase, hbytes x hx], by rw [hbase]; omega⟩
  -- the header is in front of the code of a function called `main`
  have hmain : (∃ d, definition (trees P) mainName = some d) →
      On M ((moduleSymbols A (trees P) g).func mainName) c.rbp.toNat S c := by
    rintro ⟨d, hd⟩
    have hheader := header_main mod_name mod_type hfits hd (hst.funcs mainName)
    have hfull := binary_full A (trees P) mod_name mod_type g
    have hmagic : r.2.le r.1 4 = MAGICNUM := (Store.le_congr_at fun j hj => by
      rw [hbytes j (by omega), Nat.zero_add]).trans (header_magic mod_name mod_type (trees P) g)
    have hoffset : r.2.le (r.1 + 40) 4 = (moduleSymbols A (trees P) g).func mainName :=
      (Store.le_congr_at fun j hj => by rw [Nat.add_assoc, hbytes (40 + j) (by omega)]).trans hheader
    refine ⟨hloaded, ?_, rfl, hcalled.rsp⟩
    rw [hcalled.rip, hentry, if_pos hmagic, hoffset, hbase]
  have hmeans := fun hd => standing_means A (trees P) hst mainName [] c.rbp.toNat S c (hmain hd)
    hcalled.room hcalled.top fun i hi => absurd hi (Nat.not_lt_zero i)
  exact ⟨fun n v hv => (hmeans (defined_of_meaning (Or.inl ⟨n, v, hv⟩))).1 n v hv,
    fun hmore => (hmeans (defined_of_meaning (Or.inr hmore))).2 hmore⟩

end

/-! ### A source file and its program -/

/-- `int main(){return 7;}` -/
def sevenText : List Byte :=
  [105, 110, 116, 32, 109, 97, 105, 110, 40, 41, 123, 114, 101, 116, 117, 114, 110, 32, 55, 59, 125]

def sevenStore : Store := fun j => sevenText.getD j 0

/-- The file `a` holds the text. -/
def sevenFile : Sys := (eke_fs_write_file tameState (some pathA) (some sevenStore) 21).2

def sevenFiles : Files := Files.put (fun _ => none) pathA (some sevenText)

theorem seven_stands : Stands 0 16 sevenFile sevenFiles := by
  obtain ⟨h, hun⟩ := tame_formattable
  have hs := stands_start h (by decide) (blank_tail h (by decide))
  obtain ⟨htail, hok⟩ := tame_step sevenStore (n := 21) (by decide)
  obtain ⟨i, r, hw⟩ := write_step hs.sound.good (by decide) htail hok
  exact (stands_written hs hw (by decide) (by decide)).2

def sevenTokens : List LexToken := (Lexer.init_lexer (sourceText sevenText)).getD []

def sevenProgram : Parser :=
  (Parser.parse 9 (Lexer.texts (sourceText sevenText) sevenTokens) Parser.start).state

/-- The compiler before its first text. -/
def firstCompiler : Compiler := ⟨Parser.start, .null, .zero⟩

/-- The run ends with a value. -/
def returned {σ α : Type} : Out σ α → Bool
  | .ok _ _ => true
  | _ => false

theorem out_ok {σ α : Type} {o : Out σ α} (h : returned o = true) : ∃ a, o = .ok a o.state := by
  cases o with
  | ok a s => exact ⟨a, rfl⟩
  | _ => cases h

def sevenBinary : Store × Nat × Gen := codegen_x86_emit .zero (trees sevenProgram) none 0 .zero

/-- The item is no call. -/
def callFree : Item → Bool
  | .call _ => false
  | _ => true

/-- What the passes of the compiler make of the text, evaluated together. -/
theorem seven_passes :
    Lexer.init_lexer (sourceText sevenText) = some sevenTokens ∧
    returned (Parser.parse 9 (Lexer.texts (sourceText sevenText) sevenTokens) Parser.start) = true ∧
    returned (Sema.sema_run_global_analysis sevenProgram .null) = true ∧
    Use.start.Rooms (listing .zero (trees sevenProgram)) ∧
    align8 (Use.start.afterAll (listing .zero (trees sevenProgram))).len +
      (Use.start.afterAll (listing .zero (trees sevenProgram))).pool ≤ CODE_BUF_SIZE ∧
    (listing .zero (trees sevenProgram)).all callFree = true ∧
    ((trees sevenProgram).all fun q => q.localBytes = 0) = true ∧
    sevenBinary.2.1 = 96 ∧
    (meaning cValues (trees sevenProgram) 3).call mainName [] = .is (some 7) := by
  decide +kernel

theorem seven_accepted : Accepts 9 firstCompiler sevenText sevenProgram := by
  obtain ⟨hlex, hparse, hsema, -⟩ := seven_passes
  refine ⟨sevenTokens, hlex, ?_, ?_⟩
  · obtain ⟨⟨⟩, ha⟩ := out_ok hparse
    exact ha
  · obtain ⟨⟨⟩, ha⟩ := out_ok hsema
    exact ⟨_, ha⟩

theorem seven_length : sevenBinary.2.1 = 96 := by
  obtain ⟨-, -, -, -, -, -, -, hlength, -⟩ := seven_passes
  exact hlength

/-- The state in which the binary is written, under the name `b`. -/
def sevenRead : Sys := (eke_fs_read_file sevenFile (some pathA) (some fun _ => 0) 21).2.2

def sevenDone : Sys :=
  (eke_fs_write_file sevenRead (some (pathOf ['b'])) (some sevenBinary.1) sevenBinary.2.1).2

/-- What the file system and the loader do with the two files, evaluated together. -/
theorem seven_calls :
    find_file sevenFile pathA = some 0 ∧
    (sevenFile.alloc_page (temp_pages (FileEntry.block_count sevenFile.mem (sevenFile.entry 0)))).1 ≠ 0 ∧
    sevenFile.file_table + tableBytes ≤ (sevenFile.pmm.alloc_page
      (toInt (temp_pages (FileEntry.block_count sevenFile.mem (sevenFile.entry 0))))).1 ∧
    sevenRead.file_table + tableBytes ≤
      (sevenRead.pmm.alloc_page (toInt (temp_pages (blocks_for sevenBinary.2.1)))).1 ∧
    (eke_fs_write_file sevenRead (some (pathOf ['b'])) (some sevenBinary.1) sevenBinary.2.1).1 = 0 ∧
    (loader sevenDone).get_size ['b'] = 96 ∧
    (loader sevenDone).alloc_page (pages 96) = 515 * 4096 ∧
    ((loader sevenDone).read_file ['b'] (515 * 4096) 96).1 = 96 := by
  decide +kernel

theorem seven_pages : ReadOk sevenFile pathA := by
  obtain ⟨hslot, hpages, -⟩ := seven_calls
  intro i hi
  obtain rfl := Option.some.inj (hslot.symm.trans hi)
  exact hpages

theorem seven_tame : ReadTailSafe sevenFile pathA := by
  obtain ⟨hslot, -, htail, -⟩ := seven_calls
  intro i hi
  obtain rfl := Option.some.inj (hslot.symm.trans hi)
  exact fun _ => Or.inr htail

theorem seven_source : ∃ k, compile_source .zero 9 true pathA none 0 (firstCompiler, sevenFile) =
    .ok (some (sevenBinary.1, sevenBinary.2.1)) (k, sevenRead) := by
  obtain ⟨k, hk⟩ := compile_c_code_accepts .zero none 0 seven_accepted
  refine ⟨k, ?_⟩
  rw [compile_source_reads seven_stands (put_self _ _ _) (by decide)
    (show src_buf 21 = some fun _ => 0 from rfl) seven_pages, hk]
  rfl

theorem seven_written :
    (eke_fs_write_file sevenRead (some (pathOf ['b'])) (some sevenBinary.1) sevenBinary.2.1).1 = 0 := by
  obtain ⟨-, -, -, -, hwritten, -⟩ := seven_calls
  exact hwritten

theorem seven_compiled : ∃ k,
    compile_file .zero 9 true pathA (pathOf ['b']) none 0 (firstCompiler, sevenFile) =
      .ok 0 (k, sevenDone) := by
  obtain ⟨k, hk⟩ := seven_source
  refine ⟨k, ?_⟩
  unfold compile_file
  rw [hk]
  simp only [seven_written]
  rfl

theorem seven_write : WriteAllowed .zero 9 true pathA (pathOf ['b']) none 0 firstCompiler sevenFile := by
  intro bin len k₁ s₁ h
  obtain ⟨-, -, -, htail, -⟩ := seven_calls
  obtain ⟨k, hk⟩ := seven_source
  obtain ⟨hbin, hks⟩ := Out.ok.inj (hk.symm.trans h)
  obtain ⟨rfl, rfl⟩ := Prod.mk.inj (Option.some.inj hbin)
  obtain ⟨-, rfl⟩ := Prod.mk.inj hks
  exact ⟨fun _ => Or.inr htail, Or.inl seven_written⟩

theorem seven_run : ∃ entry, cmd_run (some (loader sevenDone)) (some ['b']) = some entry := by
  obtain ⟨-, -, -, -, -, hsize, hbase, hcode⟩ := seven_calls
  rw [cmd_run_eq (show ['b'].dropWhile (· == ' ') = ['b'] by decide) hsize hbase rfl, hcode,
    if_neg (by decide)]
  exact ⟨_, rfl⟩

theorem seven_small : sevenBinary.2.1 < 2 ^ 31 := by
  rw [seven_length]
  decide

theorem seven_apart : 515 * 4096 + sevenBinary.2.1 ≤ 16777216 ∨ 16842752 ≤ 515 * 4096 := by
  rw [seven_length]
  decide

theorem seven_top : 16842752 < 2 ^ 64 := by decide

theorem seven_margin : 16 ≤ 128 := by decide

/-- The program in page 515, and its stack far behind it. -/
def sevenSetting : Setting sevenBinary.1 sevenBinary.2.1 where
  base := 515 * 4096
  lo := 16777216
  hi := 16842752
  room := 128
  small := seven_small
  apart := seven_apart
  top := seven_top
  margin := seven_margin

theorem seven_image : (image sevenDone ['b']).1 = 515 * 4096 := by
  obtain ⟨-, -, -, -, -, hsize, hbase, -⟩ := seven_calls
  unfold image
  dsimp only
  rw [hsize, hbase]

/-- The processor calls the program. -/
def sevenCpu : Cpu :=
  { rax := 0, rbx := 0, rcx := 0, rdx := 0, rsi := 0, rdi := 0, rbp := 16842000, rsp := 16840000
    r8 := 0, r9 := 0, rip := BitVec.ofNat 64 ((cmd_run (some (loader sevenDone)) (some ['b'])).getD 0)
    zf := false, sf := false, of := false, mem := (image sevenDone ['b']).2 }

theorem seven_fits : Fits (listing .zero (trees sevenProgram)) := by
  obtain ⟨-, -, -, hrooms, hstrings, hno, -⟩ := seven_passes
  exact ⟨hrooms, hstrings, fun _ hname => Bool.noConfusion (List.all_eq_true.mp hno _ hname)⟩

theorem seven_frames : ∀ q ∈ trees sevenProgram, q.FrameFits 128 := by
  obtain ⟨-, -, -, -, -, -, hall, -⟩ := seven_passes
  exact fun q hq => ⟨0, of_decide_eq_true (List.all_eq_true.mp hall q hq), by decide, by decide, by decide⟩

theorem seven_memory : sevenCpu.mem = (image sevenDone ['b']).2 := by rw [sevenCpu]

end Programs

end Eke
