import Xv6.Process.Execute

/-!
# Offsets in an executable file

The offsets in the headers have 64 bits. On their way to `readi` they go through an `int` and
through parameters of type `uint`, so that `exec` reads at the offset modulo `2 ^ 32`. It checks
only that there is something to read at that place.
-/

namespace Xv6.Process

open Lib Mem
open Fs (part ROOTINO)

/-- The table of program headers, where the header of the file says it is. -/
def tableOf (data : List UInt8) : List Proghdr :=
  (List.range (elfOf data).phnum).map fun i => headerAt data ((elfOf data).phoff + i * proghdrSize)

/-- The table and the segments that are to be loaded are in the file. -/
structure Bounded (data : List UInt8) : Prop where
  table : (elfOf data).phoff + (elfOf data).phnum * proghdrSize ≤ data.length
  segments : ∀ ph ∈ tableOf data, ph.type = ELF_PROG_LOAD → ph.off + ph.filesz ≤ data.length

/-- All offsets fit into 32 bits, and those at which there is nothing to read are in the file. -/
structure Narrow (data : List UInt8) : Prop where
  table : (elfOf data).phoff < 2 ^ 32
  noTable : (elfOf data).phnum = 0 → (elfOf data).phoff ≤ data.length
  segments : ∀ ph ∈ tableOf data, ph.type = ELF_PROG_LOAD → ph.off < 2 ^ 32
  noBytes : ∀ ph ∈ tableOf data, ph.type = ELF_PROG_LOAD → ph.filesz = 0 → ph.off ≤ data.length

section

variable {sb : Fs.Superblock} {img : Image} {M M' : Machine} {fs : List Nat} {R : Multiset Owner}
  {data path : List UInt8} {p cwd c j off m : Nat}

-- the fields are not to be computed
attribute [local irreducible] elfOf headerAt

/-- Headers that are in the file are not wrapped around. -/
theorem headers_eq (hd : data.length < 2 ^ 32) (h : off + m * proghdrSize ≤ data.length) :
    headers data off m = (List.range m).map fun i => headerAt data (off + i * proghdrSize) := by
  induction m generalizing off with
  | zero => rfl
  | succ m ih =>
    have hnext : (off + proghdrSize) % 2 ^ 32 = off + proghdrSize := by
      refine Nat.mod_eq_of_lt ?_
      simp only [proghdrSize] at *
      omega
    rw [headers, hnext, ih (by simp only [proghdrSize] at *; omega), List.range_succ_eq_map,
      List.map_cons, List.map_map, zero_mul, add_zero]
    congr 1
    refine List.map_congr_left fun i _ => ?_
    rw [Function.comp_apply, Nat.succ_mul, add_assoc, add_comm proghdrSize]

/-- `exec` loads the segments of the table if the table is in the file. -/
theorem segments_eq (hd : data.length < 2 ^ 32)
    (h : (elfOf data).phoff + (elfOf data).phnum * proghdrSize ≤ data.length) :
    segments data = (tableOf data).filter fun ph => ph.type = ELF_PROG_LOAD := by
  rw [segments, loads, Nat.mod_eq_of_lt (by omega), headers_eq hd h]
  rfl

theorem Executable.bounded_iff (h : Executable data) (hd : data.length < 2 ^ 32) :
    Bounded data ↔ Narrow data := by
  constructor
  · intro hb
    have := hb.table
    refine ⟨by omega, fun _ => by omega, fun ph hph ht => ?_, fun ph hph ht _ => ?_⟩
    · have := hb.segments ph hph ht
      omega
    · have := hb.segments ph hph ht
      omega
  · intro hn
    have htable : (elfOf data).phoff + (elfOf data).phnum * proghdrSize ≤ data.length := by
      have hh := h.fits.headers
      rw [Nat.mod_eq_of_lt hn.table] at hh
      rcases hh with h0 | hle
      · rw [h0, zero_mul]
        exact hn.noTable h0
      · exact hle
    refine ⟨htable, fun ph hph ht => ?_⟩
    have hmem : ph ∈ segments data := by
      rw [segments_eq hd htable]
      exact List.mem_filter.mpr ⟨hph, decide_eq_true ht⟩
    have hin := (h.fits.segments ph hmem).inside
    rw [Nat.mod_eq_of_lt (hn.segments ph hph ht)] at hin
    rcases hin with h0 | hle
    · rw [h0]
      exact hn.noBytes ph hph ht h0
    · exact hle

/-- A file that `exec` has executed keeps within its bounds exactly if no offset was cut off. -/
theorem exec_honours_offsets (argv : Argv) (junk : Bytes) (hf : Ready sb M.fs cwd c)
    (h0 : 0 ∉ path) (h : Owned img M.kernel.phys fs
      ({M.kernel.space p} + ({.page (M.kernel.proc p).trapframe} + R))) :
    ∃ r M', (exec sb img junk p cwd path argv.strings).run M = .ok r M' ∧
      ∀ n, r = some n → ∃ j, fileAt sb M.fs c path = some j ∧
        (Bounded (Fs.files sb M.fs.disk j).data ↔ Narrow (Fs.files sb M.fs.disk j).data) := by
  have hruns := exec_runs (E := fun _ => False) junk argv.strings hf h0 h
  obtain ⟨r, M', hrun, hran⟩ := hruns.ends fun _ => id
  refine ⟨r, M', hrun, ?_⟩
  rintro n rfl
  rcases hran.result with ⟨hc, -⟩ | ⟨j, hj, hexe, -⟩
  · cases hc
  · exact ⟨j, hj, hexe.bounded_iff (files_length_lt hf.consistent j)⟩

end

/-! ## A table beyond the end of the file -/

/-- An executable file of 120 bytes with one program header, which is to be skipped. The offset of
    the header is `64 + hi * 2 ^ 32`. -/
def skipFile (hi : UInt8) : List UInt8 :=
  [0x7F, 0x45, 0x4C, 0x46] ++ List.replicate 28 0 ++ [64, 0, 0, 0, hi, 0, 0, 0] ++
    List.replicate 16 0 ++ [1, 0] ++ List.replicate 62 0

theorem skipFile_segments {hi : UInt8} (h : hi = 0 ∨ hi = 1) : segments (skipFile hi) = [] := by
  have h0 : (segments (skipFile hi)).length = 0 := by rcases h with rfl | rfl <;> decide +kernel
  exact List.eq_nil_of_length_eq_zero h0

theorem skipFile_executable {hi : UInt8} (h : hi = 0 ∨ hi = 1) : Executable (skipFile hi) := by
  refine ⟨?_, ?_, .inr ?_, fun ph hph => ?_⟩
  iterate 3 rcases h with rfl | rfl <;> decide +kernel
  have hph : ph ∈ segments (skipFile hi) := hph
  rw [skipFile_segments h] at hph
  cases hph

/-- `exec` takes no notice of the upper half of the offset. -/
theorem skipFile_runs {hi : UInt8} (h : hi = 0 ∨ hi = 1) : ∃ (M : Machine) (fs : List Nat) (M' : Machine),
    Ready Mkfs.sb M.fs 0 ROOTINO ∧
    Owned Image.built M.kernel.phys fs
      ({M.kernel.space 0} + ({.page (M.kernel.proc 0).trapframe} + 0)) ∧
    (exec Mkfs.sb Image.built (fun _ => 0) 0 0 [105, 110, 105, 116] []).run M = .ok (some 0) M' ∧
    fileAt Mkfs.sb M.fs ROOTINO [105, 110, 105, 116] = some 2 ∧
    (Fs.files Mkfs.sb M.fs.disk 2).data = skipFile hi := by
  obtain ⟨M, fs, hf, ho, hlen, hfile, hdata⟩ :=
    exists_machine Image.built (skipFile hi) (by rcases h with rfl | rfl <;> decide +kernel)
  have hruns := exec_runs (E := fun _ => False) (fun _ => 0) [] hf
    (show 0 ∉ [105, 110, 105, 116] by decide) ho
  obtain ⟨r, M', hrun, hran⟩ := hruns.ends fun _ => id
  obtain rfl : r = some 0 := by
    refine hran.succeeds fun hno => ?_
    have hfew := hno 2 hfile
    rw [hdata, skipFile_segments h] at hfew
    have := hfew (skipFile_executable h) ⟨by decide, by decide⟩ (fun ph hph => by cases hph) 0
      fun ph hph => by cases hph
    omega
  exact ⟨M, fs, M', hf, ho, hrun, hfile, hdata⟩

/-- A program whose header is where its offset says. -/
theorem exec_honours_offsets_near : ∃ M M' : Machine, Ready Mkfs.sb M.fs 0 ROOTINO ∧
    (exec Mkfs.sb Image.built (fun _ => 0) 0 0 [105, 110, 105, 116] []).run M = .ok (some 0) M' ∧
    (Fs.files Mkfs.sb M.fs.disk 2).data = skipFile 0 ∧
    (Bounded (skipFile 0) ↔ Narrow (skipFile 0)) ∧ Bounded (skipFile 0) := by
  obtain ⟨M, fs, M', hf, h, hrun, hfile, hdata⟩ := skipFile_runs (.inl rfl)
  obtain ⟨_, _, hrun', hr⟩ := exec_honours_offsets ⟨[], by decide, by decide⟩ (fun _ => 0) hf
    (show 0 ∉ [105, 110, 105, 116] by decide) h
  cases hrun.symm.trans hrun'
  obtain ⟨j, hj, hiff⟩ := hr 0 rfl
  cases hfile.symm.trans hj
  rw [hdata] at hiff
  exact ⟨M, M', hf, hrun, hdata, hiff, by decide +kernel, by decide +kernel⟩

/-- `exec` accepts a program header at the offset `2 ^ 32 + 64` of a file of 120 bytes. -/
theorem exec_cuts_offset : ∃ (M : Machine) (fs : List Nat) (M' : Machine),
    Ready Mkfs.sb M.fs 0 ROOTINO ∧
    Owned Image.built M.kernel.phys fs
      ({M.kernel.space 0} + ({.page (M.kernel.proc 0).trapframe} + 0)) ∧
    (exec Mkfs.sb Image.built (fun _ => 0) 0 0 [105, 110, 105, 116] []).run M = .ok (some 0) M' ∧
    fileAt Mkfs.sb M.fs ROOTINO [105, 110, 105, 116] = some 2 ∧
    (Fs.files Mkfs.sb M.fs.disk 2).data = skipFile 1 ∧ ¬ Bounded (skipFile 1) := by
  obtain ⟨M, fs, M', hf, h, hrun, hfile, hdata⟩ := skipFile_runs (.inr rfl)
  refine ⟨M, fs, M', hf, h, hrun, hfile, hdata, fun hb => ?_⟩
  have hbig : (skipFile 1).length < (elfOf (skipFile 1)).phoff := by decide +kernel
  have := hb.table
  omega

end Xv6.Process
