import Xv6.Process.Offsets

/-!
# The image that `exec` builds

When the segments of a file ascend and share no page, none of them touches what another has loaded,
so that the bytes and the flags of each are those that its header says, and all the rest of the
memory below the stack is zero.
-/

namespace Xv6.Process

open Lib Mem Function List
open Fs (ROOTINO)

/-- The headers of the segments that are to be loaded. -/
def segmentsOf (data : List UInt8) : List Proghdr :=
  (tableOf data).filter fun ph => ph.type = ELF_PROG_LOAD

/-- The segments are page-aligned, ascend, share no page and are in the file. -/
structure WellFormed (data : List UInt8) : Prop where
  table : (elfOf data).phoff + (elfOf data).phnum * proghdrSize ≤ data.length
  aligned : ∀ ph ∈ segmentsOf data, ph.vaddr % PGSIZE = 0
  ascending : (segmentsOf data).Pairwise fun a b => a.vaddr + a.memsz ≤ b.vaddr
  inside : ∀ ph ∈ segmentsOf data, ph.off + ph.filesz ≤ data.length
  size : ∀ ph ∈ segmentsOf data, ph.filesz ≤ ph.memsz

/-- A page of a segment. -/
def Proghdr.HasPage (ph : Proghdr) (v : Nat) : Prop :=
  ph.vaddr / PGSIZE ≤ v ∧ v * PGSIZE < ph.vaddr + ph.memsz

/-- What the segments `l` make of the layout `L`. -/
structure Placed (data : List UInt8) (l : List Proghdr) (L L' : Layout) : Prop where
  le : npages L.sz ≤ npages L'.sz
  oldPerm : ∀ v < npages L.sz, L'.perm v = L.perm v
  oldByte : ∀ a < npages L.sz * PGSIZE, L'.byte a = L.byte a
  perm : ∀ ph ∈ l, ∀ v, ph.HasPage v → v < npages L'.sz ∧ L'.perm v = userFlags (flags2perm ph.flags)
  byte : ∀ ph ∈ l, ∀ i < ph.filesz, ph.vaddr + i < npages L'.sz * PGSIZE ∧
    L'.byte (ph.vaddr + i) = data.getD (ph.off % 2 ^ 32 + i) 0
  user : ∀ v, npages L.sz ≤ v → v < npages L'.sz → L'.perm v &&& PTE_U ≠ 0
  zero : ∀ a, npages L.sz * PGSIZE ≤ a → a < npages L'.sz * PGSIZE →
    (∀ ph ∈ l, ¬ (ph.vaddr ≤ a ∧ a < ph.vaddr + ph.filesz)) → L'.byte a = 0

/-- The memory `m` of a process with the page table `pt`, the size `sz` and the trapframe `tf` is
    the image of the file and the arguments. -/
structure RightImage (data : List UInt8) (argv : List (List UInt8)) (m : Bytes) (pt sz tf : Nat)
    (perm : Nat → Nat) (byte : Bytes) (as : List Nat) : Prop where
  shows : Shows m pt (npages sz) perm byte
  segment : ∀ ph ∈ segmentsOf data, ∀ i < ph.filesz, ph.vaddr + i < sz - 2 * PGSIZE ∧
    byte (ph.vaddr + i) = data.getD (ph.off + i) 0
  zero : ∀ a < sz - 2 * PGSIZE,
    (∀ ph ∈ segmentsOf data, ¬ (ph.vaddr ≤ a ∧ a < ph.vaddr + ph.filesz)) → byte a = 0
  user : ∀ v, (v + 2) * PGSIZE < sz → perm v &&& PTE_U ≠ 0
  pages : ∀ ph ∈ segmentsOf data, ∀ v, ph.HasPage v → (v + 2) * PGSIZE < sz ∧
    perm v &&& PTE_R ≠ 0 ∧ perm v &&& PTE_U ≠ 0 ∧ (perm v &&& PTE_W ≠ 0 ↔ ph.flags &&& 2 ≠ 0) ∧
    (perm v &&& PTE_X ≠ 0 ↔ ph.flags &&& 1 ≠ 0)
  guard : perm ((sz - 2 * PGSIZE) / PGSIZE) &&& PTE_U = 0
  stack : perm ((sz - PGSIZE) / PGSIZE) &&& PTE_U ≠ 0 ∧ perm ((sz - PGSIZE) / PGSIZE) &&& PTE_W ≠ 0
  sp : leGet 8 m (tf + tfSp) % 16 = 0 ∧ sz - PGSIZE ≤ leGet 8 m (tf + tfSp)
  args : ArgBlock byte (sz - PGSIZE) sz (leGet 8 m (tf + tfA1)) argv as

section

variable {sb : Fs.Superblock} {img : Image} {M M' : Machine} {fs : List Nat} {R : Multiset Owner}
  {data path : List UInt8} {l : List Proghdr} {ph : Proghdr} {L L' : Layout} {p cwd c v sz : Nat}

/-! ## Segments -/

theorem npages_mul_le (hsz : sz ≤ 2 ^ 64 - PGSIZE) (hv : v % PGSIZE = 0) (h : sz ≤ v) :
    npages sz * PGSIZE ≤ v := by
  rw [npages_eq hsz]
  simp only [PGSIZE] at *
  omega

theorem load_byte (a : Nat) : (L.load data ph).byte a =
    if ph.vaddr ≤ a ∧ a < ph.vaddr + ph.filesz then data.getD (ph.off % 2 ^ 32 + (a - ph.vaddr)) 0
    else if a < npages L.sz * PGSIZE then L.byte a else 0 := rfl

/-- Loading one segment above all that is there. -/
theorem load_placed (hal : ph.vaddr % PGSIZE = 0) (hsize : ph.filesz ≤ ph.memsz)
    (hB : ph.vaddr + ph.memsz ≤ 2 ^ 64 - PGSIZE) (hL : L.sz ≤ ph.vaddr) :
    Placed data [ph] L (L.load data ph) := by
  have hsz : (L.load data ph).sz = ph.vaddr + ph.memsz := max_eq_right (by omega)
  have hbelow := npages_mul_le (by omega) hal hL
  have htop := le_npages hB
  have hle : npages L.sz ≤ npages (ph.vaddr + ph.memsz) := by
    rw [npages_eq hB, npages_eq (by omega)]
    exact Nat.div_le_div_right (by omega)
  refine ⟨by rw [hsz]; exact hle, fun v hv => if_pos hv, fun a ha => ?_, fun ph' hph v hv => ?_,
    fun ph' hph i hi => ?_, fun v hv _ => ?_, fun a ha _ hno => ?_⟩
  · rw [load_byte, if_neg (by omega), if_pos ha]
  · rw [mem_singleton.mp hph, hsz] at *
    obtain ⟨hlo, hhi⟩ := hv
    refine ⟨?_, if_neg ?_⟩
    · rw [npages_eq hB]
      simp only [PGSIZE] at *
      omega
    · simp only [PGSIZE] at *
      omega
  · rw [mem_singleton.mp hph, hsz] at *
    refine ⟨by omega, ?_⟩
    rw [load_byte, if_pos (by omega), Nat.add_sub_cancel_left]
  · show (if v < npages L.sz then _ else userFlags _) &&& _ ≠ 0
    rw [if_neg (by omega)]
    exact userFlags_user _
  · have hout := hno ph mem_cons_self
    rw [load_byte, if_neg hout, if_neg (by omega)]

theorem Placed.trans {L₁ : Layout} (h₁ : Placed data [ph] L L₁) (h₂ : Placed data l L₁ L') :
    Placed data (ph :: l) L L' := by
  have hle := h₁.le
  have hpages : npages L.sz * PGSIZE ≤ npages L₁.sz * PGSIZE := Nat.mul_le_mul_right _ hle
  have hpages' : npages L₁.sz * PGSIZE ≤ npages L'.sz * PGSIZE := Nat.mul_le_mul_right _ h₂.le
  refine ⟨hle.trans h₂.le, fun v hv => ?_, fun a ha => ?_, fun ph' hph v hv => ?_,
    fun ph' hph i hi => ?_, fun v hv hv' => ?_, fun a ha ha' hno => ?_⟩
  · rw [h₂.oldPerm v (hv.trans_le hle), h₁.oldPerm v hv]
  · rw [h₂.oldByte a (ha.trans_le hpages), h₁.oldByte a ha]
  · rcases mem_cons.mp hph with rfl | hph
    · obtain ⟨hlt, hp⟩ := h₁.perm ph' mem_cons_self v hv
      exact ⟨hlt.trans_le h₂.le, by rw [h₂.oldPerm v hlt, hp]⟩
    · exact h₂.perm ph' hph v hv
  · rcases mem_cons.mp hph with rfl | hph
    · obtain ⟨hlt, hb⟩ := h₁.byte ph' mem_cons_self i hi
      exact ⟨hlt.trans_le hpages', by rw [h₂.oldByte _ hlt, hb]⟩
    · exact h₂.byte ph' hph i hi
  · by_cases hlt : v < npages L₁.sz
    · rw [h₂.oldPerm v hlt]
      exact h₁.user v hv hlt
    · exact h₂.user v (not_lt.mp hlt) hv'
  · by_cases hlt : a < npages L₁.sz * PGSIZE
    · rw [h₂.oldByte a hlt]
      refine h₁.zero a ha hlt fun ph' hph => hno ph' ?_
      rw [mem_singleton.mp hph]
      exact mem_cons_self
    · exact h₂.zero a (not_lt.mp hlt) ha' fun ph' hph => hno ph' (mem_cons_of_mem _ hph)

theorem foldl_placed (hal : ∀ ph ∈ l, ph.vaddr % PGSIZE = 0) (hsize : ∀ ph ∈ l, ph.filesz ≤ ph.memsz)
    (hB : ∀ ph ∈ l, ph.vaddr + ph.memsz ≤ 2 ^ 64 - PGSIZE)
    (hasc : l.Pairwise fun a b => a.vaddr + a.memsz ≤ b.vaddr) (hL : ∀ ph ∈ l, L.sz ≤ ph.vaddr) :
    Placed data l L (l.foldl (Layout.load data) L) := by
  induction l generalizing L with
  | nil =>
    exact ⟨le_rfl, fun _ _ => rfl, fun _ _ => rfl, (fun _ hc => by cases hc),
      (fun _ hc => by cases hc), fun v hv hv' => absurd hv' (not_lt.mpr hv),
      fun a ha ha' => absurd ha' (not_lt.mpr ha)⟩
  | cons ph l ih =>
    obtain ⟨hfirst, hasc⟩ := pairwise_cons.mp hasc
    have hself : ph ∈ ph :: l := mem_cons_self
    have hrest : ∀ {ph'}, ph' ∈ l → ph' ∈ ph :: l := fun h => mem_cons_of_mem _ h
    refine (load_placed (hal ph hself) (hsize ph hself) (hB ph hself) (hL ph hself)).trans ?_
    refine ih (fun ph' h => hal ph' (hrest h)) (fun ph' h => hsize ph' (hrest h))
      (fun ph' h => hB ph' (hrest h)) hasc fun ph' h => ?_
    have h₁ := hfirst ph' h
    have h₂ := hL ph' (hrest h)
    show max L.sz (ph.vaddr + ph.memsz) ≤ ph'.vaddr
    omega

theorem foldl_sz_ge : L.sz ≤ (l.foldl (Layout.load data) L).sz := by
  induction l generalizing L with
  | nil => exact le_rfl
  | cons ph l ih => exact (le_max_left L.sz _).trans (ih (L := L.load data ph))

theorem le_foldl_sz (hph : ph ∈ l) :
    ph.vaddr + ph.memsz ≤ (l.foldl (Layout.load data) L).sz := by
  induction l generalizing L with
  | nil => cases hph
  | cons ph' l ih =>
    rcases mem_cons.mp hph with rfl | hph
    · exact (le_max_right L.sz _).trans (foldl_sz_ge (L := L.load data ph))
    · exact ih hph

/-! ## The stack on top -/

theorem stack_below (hsmall : npages L.sz + 2 ≤ 32768) :
    (∀ v < npages L.sz, L.stack.perm v = L.perm v) ∧
      ∀ a < npages L.sz * PGSIZE, L.stack.byte a = L.byte a := by
  have hn : npages (npages L.sz * PGSIZE) = npages L.sz := npages_mul (by omega)
  constructor
  · intro v hv
    show update _ _ _ _ = _
    rw [update_of_ne (by omega)]
    show (if v < npages (npages L.sz * PGSIZE) then _ else _) = _
    rw [hn, if_pos hv]
    rfl
  · intro a ha
    show (if a < npages (npages L.sz * PGSIZE) * PGSIZE then _ else _) = _
    rw [hn, if_pos ha]
    rfl

theorem stack_guard (hsmall : npages L.sz + 2 ≤ 32768) :
    L.stack.perm (npages L.sz) &&& PTE_U = 0 ∧
      L.stack.perm (npages L.sz + 1) = userFlags PTE_W := by
  have hn : npages (npages L.sz * PGSIZE) = npages L.sz := npages_mul (by omega)
  constructor
  · have hself : L.stack.perm (npages L.sz) =
        (if npages L.sz < npages (npages L.sz * PGSIZE) then L.perm (npages L.sz)
          else userFlags PTE_W) &&& (0x3FF - PTE_U) := update_self ..
    rw [hself, hn, if_neg (lt_irrefl _)]
    decide
  · exact stack_perm L hn

/-- The flags of a page are those of the header of its segment. -/
theorem userFlags_flags2perm (flags : Nat) :
    userFlags (flags2perm flags) &&& PTE_R ≠ 0 ∧ userFlags (flags2perm flags) &&& PTE_U ≠ 0 ∧
      (userFlags (flags2perm flags) &&& PTE_W ≠ 0 ↔ flags &&& 2 ≠ 0) ∧
      (userFlags (flags2perm flags) &&& PTE_X ≠ 0 ↔ flags &&& 1 ≠ 0) := by
  rw [flags2perm]
  by_cases hx : flags &&& 1 ≠ 0 <;> by_cases hw : flags &&& 2 ≠ 0 <;>
    simp only [hx, hw, if_true, if_false, iff_true, iff_false, ne_eq, not_false_eq_true] <;>
    decide

theorem WellFormed.segments_eq (h : WellFormed data) (hd : data.length < 2 ^ 32) :
    segments data = segmentsOf data := Process.segments_eq hd h.table

theorem WellFormed.rightImage {pt sp entry : Nat} {s' : Phys} {fs' as : List Nat}
    {argv : List (List UInt8)} {byte : Bytes} (h : WellFormed data) (hd : data.length < 2 ^ 32)
    (hb : Built img M p R (layoutOf data) entry argv pt s' fs' sp as byte) :
    RightImage data argv s'.mem pt (layoutOf data).stack.sz (M.kernel.proc p).trapframe
      (layoutOf data).stack.perm byte as := by
  have hseg := h.segments_eq hd
  have hle := hb.le
  have hplaced : Placed data (segmentsOf data) .empty (layoutOf data) := by
    rw [layoutOf, hseg] at hle ⊢
    exact foldl_placed h.aligned h.size (fun ph hph => (le_foldl_sz hph).trans hle) h.ascending
      fun ph _ => Nat.zero_le _
  have hempty : npages Layout.empty.sz = 0 := by decide
  obtain ⟨hn, hsmall⟩ := hb.small
  obtain ⟨hperm, hbyte⟩ := stack_below hsmall
  obtain ⟨hguard, hstack⟩ := stack_guard hsmall
  have hargs := hb.args
  have hbelow := hb.below
  have hshows := hb.shows
  rw [stack_sz] at hargs hbelow ⊢
  rw [hn] at hshows
  generalize hN : npages (layoutOf data).sz = n at *
  have hdiv : ((n + 2) * PGSIZE - 2 * PGSIZE) / PGSIZE = n ∧
      ((n + 2) * PGSIZE - PGSIZE) / PGSIZE = n + 1 ∧ (n + 2) * PGSIZE - 2 * PGSIZE = n * PGSIZE ∧
      n * PGSIZE ≤ (n + 2) * PGSIZE - PGSIZE := by
    simp only [PGSIZE]
    omega
  obtain ⟨hdiv₂, hdiv₁, hsub, hlow⟩ := hdiv
  have hoff : ∀ ph ∈ segmentsOf data, 0 < ph.filesz → ph.off % 2 ^ 32 = ph.off := by
    intro ph hph _
    have := h.inside ph hph
    exact Nat.mod_eq_of_lt (by omega)
  refine ⟨?_, fun ph hph i hi => ?_, fun a ha hno => ?_, fun v hv => ?_, fun ph hph v hv => ?_, ?_, ?_,
    ?_, ?_⟩
  · rw [npages_mul hsmall]
    exact hshows
  · obtain ⟨hlt, hbv⟩ := hplaced.byte ph hph i hi
    rw [hN] at hlt
    rw [hoff ph hph (by omega)] at hbv
    refine ⟨by rw [hsub]; exact hlt, ?_⟩
    rw [hbelow _ (hlt.trans_le hlow), hbyte _ hlt, hbv]
  · rw [hsub] at ha
    rw [hbelow _ (Nat.lt_of_lt_of_le ha hlow), hbyte _ ha]
    exact hplaced.zero a (by rw [hempty, Nat.zero_mul]; exact Nat.zero_le a) (by rw [hN]; exact ha) hno
  · have hv : v < n := by
      simp only [PGSIZE] at hv
      omega
    rw [hperm v hv]
    exact hplaced.user v (by rw [hempty]; exact Nat.zero_le v) (by rw [hN]; exact hv)
  · obtain ⟨hlt, hp⟩ := hplaced.perm ph hph v hv
    rw [hN] at hlt
    rw [hperm v hlt, hp]
    refine ⟨?_, userFlags_flags2perm ph.flags⟩
    simp only [PGSIZE]
    omega
  · rw [hdiv₂]
    exact hguard
  · rw [hdiv₁, hstack]
    exact ⟨userFlags_user _, by decide⟩
  · rw [hb.resumes.stack]
    exact ⟨hargs.aligned, hargs.low⟩
  · rw [hb.resumes.a1]
    exact hargs

/-- After a successful `exec` of a well-formed file the process has the image of that file. `exec`
    does succeed if the file is a program without a segment that ends at address 0, the arguments fit
    into a page, and there are three free pages for each page of the program and eleven more. -/
theorem exec_builds_image {j : Nat} (argv : Argv) (junk : Bytes) (hf : Ready sb M.fs cwd c)
    (h0 : 0 ∉ path) (h : Owned img M.kernel.phys fs
      ({M.kernel.space p} + ({.page (M.kernel.proc p).trapframe} + R)))
    (hj : fileAt sb M.fs c path = some j) (hwf : WellFormed (Fs.files sb M.fs.disk j).data) :
    ∃ r M', (exec sb img junk p cwd path argv.strings).run M = .ok r M' ∧
      (Executable (Fs.files sb M.fs.disk j).data → ArgsFit argv.strings →
        (∀ ph ∈ segmentsOf (Fs.files sb M.fs.disk j).data, 0 < ph.vaddr + ph.memsz) →
        ∀ K, (∀ ph ∈ segmentsOf (Fs.files sb M.fs.disk j).data, ph.vaddr + ph.memsz ≤ K * PGSIZE) →
          3 * K + 11 < fs.length → r = some argv.strings.length) ∧
      ∀ n, r = some n → n = argv.strings.length ∧ ∃ perm byte as,
        RightImage (Fs.files sb M.fs.disk j).data argv.strings M'.kernel.phys.mem
          (M'.kernel.proc p).pagetable (M'.kernel.proc p).sz (M'.kernel.proc p).trapframe
          perm byte as := by
  have hruns := exec_runs (E := fun _ => False) junk argv.strings hf h0 h
  obtain ⟨r, M', hrun, hran⟩ := hruns.ends fun _ => id
  have hlt := files_length_lt hf.consistent j
  refine ⟨r, M', hrun, fun hexe hfit hpos K hK hroom => hran.succeeds fun hno => ?_, ?_⟩
  · rw [← hwf.segments_eq hlt] at hpos hK
    have := hno j hj hexe hfit hpos K hK
    omega
  rintro n rfl
  rcases hran.result with ⟨hc, -⟩ | ⟨j', hj', -, ⟨hc, -⟩ | ⟨hr, pt, s', fs', sp, as, byte, hM', hb⟩⟩
  · cases hc
  · cases hc
  rw [hj] at hj'
  cases hj'
  refine ⟨Option.some_inj.mp hr, (layoutOf (Fs.files sb M.fs.disk j).data).stack.perm, byte, as, ?_⟩
  have hproc : M'.kernel.proc p = { (M.setFs M'.fs).kernel.proc p with
      pagetable := pt, sz := (layoutOf (Fs.files sb M.fs.disk j).data).stack.sz } := by
    rw [hM']
    exact update_self ..
  have hmem : M'.kernel.phys = s' := by
    rw [hM']
    rfl
  rw [hproc, hmem]
  exact hwf.rightImage hlt hb

end

/-- A program with one segment of four bytes in a page that can be executed, but not written. -/
def textFile : List UInt8 :=
  [0x7F, 0x45, 0x4C, 0x46] ++ replicate 28 0 ++ [64, 0, 0, 0, 0, 0, 0, 0] ++
    replicate 16 0 ++ [1, 0] ++ replicate 6 0 ++
    [1, 0, 0, 0, 5, 0, 0, 0, 120, 0, 0, 0, 0, 0, 0, 0] ++ replicate 16 0 ++
    [4, 0, 0, 0, 0, 0, 0, 0, 8, 0, 0, 0, 0, 0, 0, 0] ++ replicate 8 0 ++ [1, 2, 3, 4]

theorem textFile_wellFormed : WellFormed textFile :=
  ⟨by decide +kernel, by decide +kernel, by decide +kernel, by decide +kernel, by decide +kernel⟩

theorem textFile_executable : Executable textFile := by
  have hseg : ∀ ph ∈ segments textFile, ph.filesz ≤ ph.memsz ∧ ph.vaddr + ph.memsz < 2 ^ 64 ∧
      ph.vaddr % PGSIZE = 0 ∧ ph.off % 2 ^ 32 + ph.filesz ≤ textFile.length := by decide +kernel
  refine ⟨by decide +kernel, by decide +kernel, .inr (by decide +kernel), fun ph hph => ?_⟩
  obtain ⟨hsize, hwrap, hal, hin⟩ := hseg ph hph
  exact ⟨hsize, hwrap, hal, .inr hin⟩

/-- The first process executes the program with two arguments. -/
theorem exec_builds_image_text : ∃ M M' : Machine, Ready Mkfs.sb M.fs 0 ROOTINO ∧ WellFormed textFile ∧
    (exec Mkfs.sb Image.built (fun _ => 0) 0 0 [105, 110, 105, 116] [[97], [98]]).run M =
      .ok (some 2) M' ∧ ∃ perm byte as,
      RightImage textFile [[97], [98]] M'.kernel.phys.mem (M'.kernel.proc 0).pagetable
        (M'.kernel.proc 0).sz (M'.kernel.proc 0).trapframe perm byte as := by
  obtain ⟨M, fs, hf, h, hlen, hj, hdata⟩ :=
    exists_machine Image.built textFile ⟨by decide +kernel, by decide +kernel⟩
  obtain ⟨r, M', hrun, hgood, hr⟩ := exec_builds_image ⟨[[97], [98]], by decide, by decide⟩
    (fun _ => 0) hf (show 0 ∉ [105, 110, 105, 116] by decide) h hj
    (by rw [hdata]; exact textFile_wellFormed)
  rw [hdata] at hr hgood
  have hsome := hgood textFile_executable ⟨by decide, by decide⟩ (by decide +kernel) 1
    (by decide +kernel) (by omega)
  rw [hsome] at hrun
  exact ⟨M, M', hf, textFile_wellFormed, hrun, (hr 2 hsome).2⟩

end Xv6.Process
