import Xv6.Fs.Content
import Xv6.Mem.Shows
import Xv6.Process.Exec

/-!
# Loading a program

`Layout` is what a user program will find in its memory: how large it is, the flags of its pages and
its bytes. Loading a segment is a function on layouts, `Layout.load`. `loadProgram` does in memory
what this function says, for one program header after the other, whatever the file is; it gives up
when a header or a segment is not in the file, when a header makes no sense, or when there is no
memory.
-/

namespace Xv6.Process

open Lib Mem
open Fs (part)

/-- The inode `ip`, which is locked, is a file with the bytes `data`. -/
structure Opened (sb : Fs.Superblock) (s : Fs.State) (ip : Nat) (data : List UInt8) : Prop where
  consistent : Fs.Consistent sb s.disk
  file : ∃ i, Fs.Holds sb s ip i ∧ (Fs.files sb s.disk i).data = data

/-! ## Headers -/

/-- The program header that `exec` reads at `off`. -/
def headerAt (data : List UInt8) (off : Nat) : Proghdr :=
  .ofBytes (Fs.array (part data off proghdrSize))

/-- The `m` program headers from `off` on. -/
def headers (data : List UInt8) : (off m : Nat) → List Proghdr
  | _, 0 => []
  | off, m + 1 => headerAt data off :: headers data ((off + proghdrSize) % 2 ^ 32) m

/-- The headers of segments that are to be loaded. -/
def loads (data : List UInt8) (off m : Nat) : List Proghdr :=
  (headers data off m).filter fun ph => ph.type = ELF_PROG_LOAD

/-- What `exec` asks of the header of a segment. -/
structure Proghdr.Fits (data : List UInt8) (ph : Proghdr) : Prop where
  size : ph.filesz ≤ ph.memsz
  wrap : ph.vaddr + ph.memsz < 2 ^ 64
  aligned : ph.vaddr % PGSIZE = 0
  inside : ph.filesz = 0 ∨ ph.off % 2 ^ 32 + ph.filesz ≤ data.length

/-- What `exec` asks of the `m` program headers from `off` on. -/
structure Fits (data : List UInt8) (off m : Nat) : Prop where
  headers : m = 0 ∨ off + m * proghdrSize ≤ data.length
  segments : ∀ ph ∈ loads data off m, ph.Fits data

/-! ## Layouts -/

structure Layout where
  sz : Nat
  perm : Nat → Nat
  byte : Bytes

def Layout.empty : Layout := ⟨0, fun _ => 0, fun _ => 0⟩

/-- New pages, which are full of zeroes, so that there is memory below `e`. -/
def Layout.grow (L : Layout) (e xperm : Nat) : Layout where
  sz := max L.sz e
  perm v := if v < npages L.sz then L.perm v else userFlags xperm
  byte a := if a < npages L.sz * PGSIZE then L.byte a else 0

/-- Bytes of user memory are overwritten. -/
def Layout.put (L : Layout) (va : Nat) (f : Bytes) (n : Nat) : Layout :=
  { L with byte := putBytes L.byte va f n }

/-- Memory up to the end of the segment, and the bytes of the segment in it. -/
def Layout.load (data : List UInt8) (L : Layout) (ph : Proghdr) : Layout :=
  (L.grow (ph.vaddr + ph.memsz) (flags2perm ph.flags)).put ph.vaddr
    (fun j => data.getD (ph.off % 2 ^ 32 + j) 0) ph.filesz

/-- The address space `pt` has the layout `L`, and all its pages are for the user. -/
structure Loaded (img : Image) (s : Phys) (fs : List Nat) (pt tf : Nat) (R : Multiset Owner)
    (L : Layout) : Prop where
  owned : Owned img s fs ({.space pt (npages L.sz) tf} + R)
  le : L.sz ≤ 2 ^ 64 - PGSIZE
  shows : Shows s.mem pt (npages L.sz) L.perm L.byte
  user : ∀ v < npages L.sz, L.perm v &&& PTE_U ≠ 0

/-- Only memory has changed, and in it only what `O` has now and free pages. -/
structure Confined (img : Image) (M M' : Machine) (fs' : List Nat) (O R : Multiset Owner) :
    Prop where
  phys : M' = M.setPhys M'.kernel.phys
  owned : Owned img M'.kernel.phys fs' (O + R)
  rest : Untouched R M.kernel.phys.mem M'.kernel.phys.mem

section

variable {sb : Fs.Superblock} {img : Image} {M M₁ M' : Machine} {s s' : Phys} {fs fs' : List Nat}
  {R O O' : Multiset Owner} {data : List UInt8} {L : Layout} {ph : Proghdr} {E : Option String → Prop}
  {ip pt tf va sz off n m k i j x e : Nat} {byte f g : Bytes} {α : Type}

theorem onMem_runs {q : Prog Phys α} {Q : α → Phys → Prop} (h : q.Runs M.kernel.phys E Q) :
    (onMem q).Runs M E fun a M' => ∃ s, M' = M.setPhys s ∧ Q a s :=
  Prog.Runs.zoom (fun _ _ => rfl) (fun _ _ _ => rfl) (fun _ => rfl) h

theorem onFs_runs {q : Prog Fs.State α} {Q : α → Fs.State → Prop} (h : q.Runs M.fs E Q) :
    (onFs q).Runs M E fun a M' => ∃ s, M' = M.setFs s ∧ Q a s :=
  Prog.Runs.zoom (fun _ _ => rfl) (fun _ _ _ => rfl) (fun _ => rfl) h

theorem Confined.refl (h : Owned img M.kernel.phys fs (O + R)) : Confined img M M fs O R :=
  ⟨rfl, h, .refl _ _⟩

theorem Confined.trans (h : Confined img M M₁ fs O R) (h' : Confined img M₁ M' fs' O' R) :
    Confined img M M' fs' O' R := by
  refine ⟨?_, h'.owned, h.rest.trans h'.rest⟩
  rw [h'.phys, h.phys]
  rfl

/-! ## Reading the file -/

theorem part_length_le : (part data off n).length ≤ n := by
  rw [part, List.length_drop, List.length_take]
  have := Nat.mod_le (off + n) (2 ^ 32)
  omega

/-- A read is complete if what is to be read is in the file. -/
theorem part_length_eq (hd : data.length < 2 ^ 32) (hn : n < 2 ^ 32) (hoff : off < 2 ^ 32)
    (h0 : n ≠ 0) : (part data off n).length = n ↔ off + n ≤ data.length := by
  rw [part, List.length_drop, List.length_take]
  omega

theorem part_getD (hd : data.length < 2 ^ 32) (hle : off + n ≤ data.length) (hj : j < n) :
    (part data off n).getD j 0 = data.getD (off + j) 0 := by
  rw [part, List.getD_eq_getElem?_getD, List.getD_eq_getElem?_getD, List.getElem?_drop,
    List.getElem?_take_of_lt (by omega)]

theorem files_length_lt {disk : Fs.Disk} (h : Fs.Consistent sb disk) (i : Nat) :
    (Fs.files sb disk i).data.length < 2 ^ 32 := by
  have hsize := h.size_le i
  have hlen : (Fs.files sb disk i).data.length = (Fs.live sb disk i).size := Fs.content_length
  simp only [Fs.MAXFILE, BSIZE, Fs.NDIRECT, Fs.NINDIRECT] at hsize
  omega

theorem Opened.length_lt {σ : Fs.State} (h : Opened sb σ ip data) : data.length < 2 ^ 32 := by
  obtain ⟨i, hh, rfl⟩ := h.file
  exact files_length_lt h.consistent i

/-- A read into memory of the kernel. -/
theorem read_runs (h : Opened sb M.fs ip data) (hn : n < 2 ^ 32) :
    (onFs (Fs.readi sb ip n off n)).Runs M E fun r M' => M' = M ∧
      r = (some (part data off n).length, part data off n) := by
  obtain ⟨i, hh, rfl⟩ := h.file
  refine (onFs_runs (Fs.readi_content (Q := fun r s => s = M.fs ∧
    r = (some (part (Fs.files sb M.fs.disk i).data off n).length, part _ off n)) h.consistent hh hn
    part_length_le ⟨rfl, rfl⟩)).mono ?_
  rintro r _ ⟨s, rfl, rfl, hr⟩
  exact ⟨rfl, hr⟩

/-! ## `loadseg` -/

theorem putBytes_zero : putBytes byte va f 0 = byte := by
  funext a
  exact if_neg (by omega)

/-- Two runs of bytes, one after the other. -/
theorem putBytes_append (hk : k ≤ n) : putBytes (putBytes byte va f k) (va + k)
    (fun j => f (k + j)) (n - k) = putBytes byte va f n := by
  funext a
  unfold putBytes
  by_cases h1 : va + k ≤ a ∧ a < va + k + (n - k)
  · rw [if_pos h1, if_pos (by omega)]
    show f (k + (a - (va + k))) = f (a - va)
    rw [show k + (a - (va + k)) = a - va by omega]
  · rw [if_neg h1]
    by_cases h2 : va ≤ a ∧ a < va + k
    · rw [if_pos h2, if_pos (by omega)]
    · rw [if_neg h2, if_neg (by omega)]

theorem putBytes_congr (h : ∀ j < n, f j = g j) : putBytes byte va f n = putBytes byte va g n := by
  funext a
  unfold putBytes
  split
  · exact h _ (by omega)
  · rfl

/-- What `loadseg` has done from offset `i` of the segment on. -/
structure SegRead (img : Image) (M M' : Machine) (fs : List Nat) (R : Multiset Owner)
    (data : List UInt8) (pt tf n va off sz i : Nat) (ok : Bool) : Prop
    extends Confined img M M' fs {.space pt n tf} R where
  inside : ok = true → i < sz → off + sz ≤ data.length
  shows : ok = true → ∀ perm byte, Shows M.kernel.phys.mem pt n perm byte →
    Shows M'.kernel.phys.mem pt n perm (putBytes byte (va + i)
      (fun j => data.getD (off + i + j) 0) (sz - i))
  outside : ok = false → i < sz ∧ data.length < off + sz

/-- There is nothing to load. -/
theorem SegRead.nil (h : Owned img M.kernel.phys fs ({.space pt n tf} + R)) (hle : sz ≤ i) :
    SegRead img M M fs R data pt tf n va off sz i true := by
  refine ⟨.refl h, fun _ hc => by omega, fun _ perm byte hs => ?_, fun hc => by cases hc⟩
  rw [Nat.sub_eq_zero_of_le hle, putBytes_zero]
  exact hs

/-- One page, and then the rest. -/
theorem SegRead.cons {c : Nat} {ok : Bool} (hd : data.length < 2 ^ 32)
    (h₁ : Confined img M M₁ fs {.space pt n tf} R)
    (hc : c = sz - i ∧ c ≤ PGSIZE ∨ c = PGSIZE ∧ PGSIZE ≤ sz - i)
    (hread : off + i + c ≤ data.length)
    (hshows : ∀ perm byte, Shows M.kernel.phys.mem pt n perm byte → Shows M₁.kernel.phys.mem pt n perm
      (putBytes byte (va + i) (Fs.array (part data (off + i) c)) c))
    (h : SegRead img M₁ M' fs R data pt tf n va off sz (i + PGSIZE) ok) :
    SegRead img M M' fs R data pt tf n va off sz i ok := by
  refine ⟨h₁.trans h.toConfined, fun hok hlt => ?_, fun hok perm byte hs => ?_,
    fun hok => ⟨by have := (h.outside hok).1; omega, (h.outside hok).2⟩⟩
  · rcases hc with ⟨hc, -⟩ | ⟨hc, hle⟩
    · omega
    · by_cases hnext : i + PGSIZE < sz
      · exact h.inside hok hnext
      · omega
  · have h' := h.shows hok perm _ (hshows perm byte hs)
    have hpart : ∀ j < c, Fs.array (part data (off + i) c) j = data.getD (off + i + j) 0 :=
      fun j hj => part_getD hd hread hj
    rw [putBytes_congr hpart] at h'
    rcases hc with ⟨hc, hle⟩ | ⟨hc, hle⟩
    · rw [show sz - (i + PGSIZE) = 0 by omega, putBytes_zero, hc] at h'
      exact h'
    · rw [← putBytes_append (k := c) (by omega)]
      have hfun : (fun j => data.getD (off + (i + PGSIZE) + j) 0) =
          fun j => data.getD (off + i + (c + j)) 0 := by
        funext j
        rw [hc]
        congr 1
        omega
      rw [hfun, show va + (i + PGSIZE) = va + i + c by omega,
        show sz - (i + PGSIZE) = sz - i - c by omega] at h'
      exact h'

theorem loadsegLoop_runs (hf : Opened sb M.fs ip data) (hva : va % PGSIZE = 0) (hoff : off < 2 ^ 32)
    (hfit : va + sz ≤ n * PGSIZE) (h : Owned img M.kernel.phys fs ({.space pt n tf} + R))
    (hU : ∀ v < n, ∃ p fl, look M.kernel.phys.mem pt v = some (p, fl) ∧ fl &&& PTE_U ≠ 0)
    (hi : i % PGSIZE = 0) (hin : i < sz → i = 0 ∨ off + i ≤ data.length)
    (hk : sz ≤ i + k * PGSIZE) :
    (loadsegLoop sb pt va ip off sz (k + 1) i).Runs M E fun ok M' =>
      SegRead img M M' fs R data pt tf n va off sz i ok := by
  induction k generalizing M i with
  | zero =>
    rw [loadsegLoop, if_neg (by omega)]
    exact .ret (.nil h (by omega))
  | succ k ih =>
    rw [loadsegLoop]
    by_cases hlt : i < sz
    swap
    · rw [if_neg hlt]
      exact .ret (.nil h (by omega))
    rw [if_pos hlt]
    have hsmall := h.space.1.small
    have hd := hf.length_lt
    have hv : (va + i) / PGSIZE < n ∧ (va + i) / PGSIZE * PGSIZE = va + i ∧
        (va + i) % 2 ^ 64 = va + i ∧ (i + PGSIZE) % 2 ^ 32 = i + PGSIZE := by
      simp only [PGSIZE] at *
      omega
    obtain ⟨hvn, hvmul, hmod, hnext⟩ := hv
    have hoffi : (off + i) % 2 ^ 32 = off + i := by
      have := hin hlt
      omega
    obtain ⟨p, fl, hl, hfl⟩ := hU _ hvn
    have hpage : userPage M.kernel.phys.mem pt (va + i) = p := by
      rw [userPage, hl]
      exact if_neg hfl
    have hp := (h.space.1.frame_page hvn hl).1
    rw [hmod, hoffi, hnext]
    refine .bind (onMem_runs walkaddr_runs) ?_
    rintro _ M₀ ⟨s₀, hM₀, rfl, rfl⟩
    obtain rfl : M₀ = M := hM₀
    rw [hpage, if_neg hp.pos.ne']
    generalize hc : (if sz - i < PGSIZE then sz - i else PGSIZE) = c
    have hcc : c = sz - i ∧ c ≤ PGSIZE ∨ c = PGSIZE ∧ PGSIZE ≤ sz - i := by
      split at hc <;> omega
    have hcpos : c ≠ 0 ∧ c ≤ PGSIZE := by
      simp only [PGSIZE] at *
      omega
    refine .bind (read_runs hf (by simp only [PGSIZE] at *; omega)) ?_
    rintro _ M₀ ⟨rfl, rfl⟩
    have hplen : (part data (off + i) c).length ≤ c := part_length_le
    refine .bind (onMem_runs (putAt_shows 0 h hvn hl (by omega))) ?_
    rintro _ _ ⟨s₁, rfl, h₁, hrest, hlook, hshows⟩
    have hfull : (part data (off + i) c).length = c ↔ off + i + c ≤ data.length :=
      part_length_eq hd (by simp only [PGSIZE] at *; omega) (by omega) hcpos.1
    by_cases hread : (part data (off + i) c).length = c
    · rw [if_pos (congrArg some hread)]
      rw [hread, add_zero, hvmul] at hshows
      refine (ih (M := M₀.setPhys s₁) hf h₁ ?_ (by rw [Nat.add_mod_right]; exact hi) ?_ ?_).mono ?_
      · show ∀ v < n, ∃ p fl, look s₁.mem pt v = some (p, fl) ∧ _
        rw [hlook]
        exact hU
      · have := hfull.mp hread
        omega
      · rw [Nat.succ_mul] at hk
        omega
      · intro ok M' hr
        exact hr.cons hd ⟨rfl, h₁, hrest⟩ hcc (hfull.mp hread) hshows
    · rw [if_neg fun hc => hread (Option.some_inj.mp hc)]
      refine .ret ⟨⟨rfl, h₁, hrest⟩, (fun hc => by cases hc), (fun hc => by cases hc), fun _ => ?_⟩
      have := fun hc => hread (hfull.mpr hc)
      exact ⟨hlt, by omega⟩

theorem loadseg_runs (hf : Opened sb M.fs ip data) (hva : va % PGSIZE = 0) (hoff : off < 2 ^ 32)
    (hfit : va + sz ≤ n * PGSIZE) (h : Owned img M.kernel.phys fs ({.space pt n tf} + R))
    (hU : ∀ v < n, ∃ p fl, look M.kernel.phys.mem pt v = some (p, fl) ∧ fl &&& PTE_U ≠ 0) :
    (loadseg sb pt va ip off sz).Runs M E fun ok M' =>
      SegRead img M M' fs R data pt tf n va off sz 0 ok := by
  have hsmall := h.space.1.small
  refine loadsegLoop_runs hf hva hoff hfit h hU rfl (fun _ => .inl rfl) ?_
  simp only [PGSIZE] at *
  omega

/-! ## Loading segments -/

theorem userFlags_user (xperm : Nat) : userFlags xperm &&& PTE_U ≠ 0 := by
  intro hc
  have h4 := congrArg (·.testBit 4) hc
  have hU : Nat.testBit PTE_U 4 = true := by decide
  simp only [userFlags, Nat.testBit_and, Nat.testBit_or, Nat.zero_testBit, hU, Bool.or_true,
    Bool.true_or, Bool.and_true] at h4
  cases h4

theorem flags2perm_lt (flags : Nat) : flags2perm flags < 1024 := by
  unfold flags2perm
  split <;> split <;> decide

theorem Loaded.grow (h : Loaded img s fs pt tf R L)
    (ho : Owned img s' fs' ({.space pt (npages (max L.sz e)) tf} + R))
    (hle : max L.sz e ≤ 2 ^ 64 - PGSIZE)
    (hg : Grew img s s' fs fs' pt (npages L.sz) (npages (max L.sz e)) (.zeroed (userFlags x))) :
    Loaded img s' fs' pt tf R (L.grow e x) where
  owned := ho
  le := hle
  shows := h.shows.grew h.owned.space.1 hg
  user v hv := by
    show (if v < npages L.sz then L.perm v else userFlags x) &&& PTE_U ≠ 0
    split
    · next hvn =>
      exact h.user v hvn
    · exact userFlags_user x

/-- Every page of the layout is there. -/
theorem Loaded.pages (h : Loaded img s fs pt tf R L) :
    ∀ v < npages L.sz, ∃ p fl, look s.mem pt v = some (p, fl) ∧ fl &&& PTE_U ≠ 0 := by
  intro v hv
  obtain ⟨p, hl, -⟩ := h.shows v hv
  exact ⟨p, _, hl, h.user v hv⟩

theorem SegRead.loaded (h : Loaded img M.kernel.phys fs pt tf R L)
    (hr : SegRead img M M' fs R data pt tf (npages L.sz) va off sz 0 true) :
    Loaded img M'.kernel.phys fs pt tf R (L.put va (fun j => data.getD (off + j) 0) sz) where
  owned := hr.owned
  le := h.le
  shows := hr.shows rfl _ _ h.shows
  user := h.user

/-! ## Loading a program -/

/-- What `loadProgram` has done for the `m` headers from `off` on. Where it fails though the file is
    all right, there were not three free pages for every page that was needed. -/
structure ProgRead (img : Image) (M M' : Machine) (fs fs' : List Nat) (R : Multiset Owner)
    (data : List UInt8) (pt tf : Nat) (L : Layout) (off m : Nat) (ok : Bool) (sz : Nat) : Prop
    extends Confined img M M' fs' {.space pt (npages sz) tf} R where
  le : sz ≤ 2 ^ 64 - PGSIZE
  size : ok = true → sz = ((loads data off m).foldl (Layout.load data) L).sz
  loaded : ok = true →
    Loaded img M'.kernel.phys fs' pt tf R ((loads data off m).foldl (Layout.load data) L)
  fits : ok = true → Fits data off m
  room : ok = true → fs.length + 3 * npages L.sz ≤ fs'.length + 3 * npages sz
  failed : ok = false → Fits data off m → (∀ ph ∈ loads data off m, 0 < ph.vaddr + ph.memsz) →
    ∀ K, (∀ ph ∈ loads data off m, ph.vaddr + ph.memsz ≤ K * PGSIZE) →
      fs.length + 3 * npages L.sz ≤ 3 * K

theorem fits_succ (hread : off + proghdrSize ≤ data.length) (hd : data.length < 2 ^ 32) :
    Fits data off (m + 1) ↔ Fits data ((off + proghdrSize) % 2 ^ 32) m ∧
      ((headerAt data off).type = ELF_PROG_LOAD → (headerAt data off).Fits data) := by
  have hnext : (off + proghdrSize) % 2 ^ 32 = off + proghdrSize := Nat.mod_eq_of_lt (by omega)
  have hheaders : (m + 1 = 0 ∨ off + (m + 1) * proghdrSize ≤ data.length) ↔
      (m = 0 ∨ off + proghdrSize + m * proghdrSize ≤ data.length) := by
    simp only [proghdrSize] at hread ⊢
    omega
  have hsegments : (∀ ph ∈ loads data off (m + 1), ph.Fits data) ↔
      (∀ ph ∈ loads data (off + proghdrSize) m, ph.Fits data) ∧
        ((headerAt data off).type = ELF_PROG_LOAD → (headerAt data off).Fits data) := by
    rw [loads, headers, hnext]
    by_cases ht : (headerAt data off).type = ELF_PROG_LOAD
    · rw [List.filter_cons_of_pos (by simpa using ht), List.forall_mem_cons, and_comm]
      exact and_congr_right fun _ => ⟨fun h _ => h, fun h => h ht⟩
    · rw [List.filter_cons_of_neg (by simpa using ht)]
      exact ⟨fun h => ⟨h, fun hc => absurd hc ht⟩, fun h => h.1⟩
  rw [hnext]
  constructor
  · intro h
    obtain ⟨hs, hh⟩ := hsegments.mp h.segments
    exact ⟨⟨hheaders.mp h.headers, hs⟩, hh⟩
  · rintro ⟨h, hh⟩
    exact ⟨hheaders.mpr h.headers, hsegments.mpr ⟨h.segments, hh⟩⟩

theorem loads_skip (ht : (headerAt data off).type ≠ ELF_PROG_LOAD) :
    loads data off (m + 1) = loads data ((off + proghdrSize) % 2 ^ 32) m := by
  rw [loads, headers, List.filter_cons_of_neg (by simpa using ht)]
  rfl

theorem loads_cons (ht : (headerAt data off).type = ELF_PROG_LOAD) :
    loads data off (m + 1) =
      headerAt data off :: loads data ((off + proghdrSize) % 2 ^ 32) m := by
  rw [loads, headers, List.filter_cons_of_pos (by simpa using ht)]
  rfl

theorem ProgRead.refused (h : Loaded img M.kernel.phys fs pt tf R L) (hno : ¬ Fits data off m) :
    ProgRead img M M fs fs R data pt tf L off m false L.sz where
  toConfined := .refl h.owned
  le := h.le
  size hc := by cases hc
  loaded hc := by cases hc
  fits hc := by cases hc
  room hc := by cases hc
  failed _ hc := absurd hc hno

/-- A header of something else. -/
theorem ProgRead.skip {ok : Bool} (hread : off + proghdrSize ≤ data.length)
    (hd : data.length < 2 ^ 32) (ht : (headerAt data off).type ≠ ELF_PROG_LOAD)
    (h : ProgRead img M M' fs fs' R data pt tf L ((off + proghdrSize) % 2 ^ 32) m ok sz) :
    ProgRead img M M' fs fs' R data pt tf L off (m + 1) ok sz where
  toConfined := h.toConfined
  le := h.le
  size := by
    rw [loads_skip ht]
    exact h.size
  loaded := by
    rw [loads_skip ht]
    exact h.loaded
  fits hok := (fits_succ hread hd).mpr ⟨h.fits hok, fun hc => absurd hc ht⟩
  room := h.room
  failed hok hf := by
    rw [loads_skip ht]
    exact h.failed hok ((fits_succ hread hd).mp hf).1

/-- A segment, and then the rest. -/
theorem ProgRead.cons {n : Nat} {fs₁ : List Nat} {ok : Bool}
    (hread : off + proghdrSize ≤ data.length) (hd : data.length < 2 ^ 32)
    (ht : (headerAt data off).type = ELF_PROG_LOAD) (hfit : (headerAt data off).Fits data)
    (h₁ : Confined img M M₁ fs₁ {.space pt n tf} R)
    (hroom : fs.length + 3 * npages L.sz ≤
      fs₁.length + 3 * npages (L.load data (headerAt data off)).sz)
    (h : ProgRead img M₁ M' fs₁ fs' R data pt tf (L.load data (headerAt data off))
      ((off + proghdrSize) % 2 ^ 32) m ok sz) :
    ProgRead img M M' fs fs' R data pt tf L off (m + 1) ok sz where
  toConfined := h₁.trans h.toConfined
  le := h.le
  size := by
    rw [loads_cons ht]
    exact h.size
  loaded := by
    rw [loads_cons ht]
    exact h.loaded
  fits hok := (fits_succ hread hd).mpr ⟨h.fits hok, fun _ => hfit⟩
  room hok := hroom.trans (h.room hok)
  failed hok hf := by
    rw [loads_cons ht]
    intro hpos K hK
    exact hroom.trans (h.failed hok ((fits_succ hread hd).mp hf).1
      (fun ph hph => hpos ph (List.mem_cons_of_mem _ hph)) K
      fun ph hph => hK ph (List.mem_cons_of_mem _ hph))

theorem headerAt_lt (data : List UInt8) (off : Nat) :
    (headerAt data off).vaddr < 2 ^ 64 ∧ (headerAt data off).memsz < 2 ^ 64 :=
  ⟨leGet_lt 8 .., leGet_lt 8 ..⟩

theorem le_npages (h : n ≤ 2 ^ 64 - PGSIZE) : n ≤ npages n * PGSIZE := by
  rw [npages_eq h]
  simp only [PGSIZE]
  omega

/-- The last part of the loop's body, after the checks: there is memory up to the end of the segment
    then, and the segment in it. -/
theorem loadSegment_runs (ph : Proghdr) (hf : Opened sb M.fs ip data)
    (h : Loaded img M.kernel.phys fs pt tf R L) (hsize : ph.filesz ≤ ph.memsz)
    (hwrap : ph.vaddr + ph.memsz < 2 ^ 64) (haligned : ph.vaddr % PGSIZE = 0)
    {q : Nat → Prog Machine (Bool × Nat)} {Q : Bool × Nat → Machine → Prop}
    (hmem : ∀ M₁ fs₁, Confined img M M₁ fs₁ {.space pt (npages L.sz) tf} R →
      (0 < ph.vaddr + ph.memsz → ∀ K, ph.vaddr + ph.memsz ≤ K * PGSIZE →
        fs.length + 3 * npages L.sz ≤ 3 * K) → Q (false, L.sz) M₁)
    (hout : ∀ M₁ fs₁ sz, Confined img M M₁ fs₁ {.space pt (npages sz) tf} R →
      sz ≤ 2 ^ 64 - PGSIZE → ¬ ph.Fits data → Q (false, sz) M₁)
    (hin : ∀ M₁ fs₁, Confined img M M₁ fs₁ {.space pt (npages (L.load data ph).sz) tf} R →
      Loaded img M₁.kernel.phys fs₁ pt tf R (L.load data ph) → ph.Fits data →
      fs.length + 3 * npages L.sz ≤ fs₁.length + 3 * npages (L.load data ph).sz →
      (q (L.load data ph).sz).Runs M₁ E Q) :
    (do
      let sz1 ← onMem (uvmalloc img pt L.sz ((ph.vaddr + ph.memsz) % 2 ^ 64) (flags2perm ph.flags))
      if sz1 = 0 then return (false, L.sz)
      else if ← loadseg sb pt ph.vaddr ip (ph.off % 2 ^ 32) (ph.filesz % 2 ^ 32) then q sz1
      else return (false, sz1) : Prog Machine (Bool × Nat)).Runs M E Q := by
  rw [Nat.mod_eq_of_lt hwrap]
  refine .bind (onMem_runs (uvmalloc_owned h.owned h.le (flags2perm_lt _))) ?_
  rintro r _ ⟨s₁, rfl, fs₁, n', ho, hrest, hg, hcase⟩
  by_cases hr : r = 0
  · rw [if_pos hr]
    rcases hcase with ⟨hmax, hn', -⟩ | ⟨-, hn', -, hK⟩
    · have hzero : ph.vaddr + ph.memsz = 0 ∧ L.sz = r := by omega
      rw [hn', ← hzero.2] at ho
      exact .ret (hmem _ fs₁ ⟨rfl, ho, hrest⟩ fun hpos => by omega)
    · rw [hn'] at ho
      exact .ret (hmem _ fs₁ ⟨rfl, ho, hrest⟩ fun _ => hK)
  rw [if_neg hr]
  rcases hcase with ⟨hmax, rfl, hle, hroom⟩ | ⟨hc, -⟩
  swap
  · exact absurd hc hr
  subst hmax
  have hL := h.grow ho hle hg
  have hconf : Confined img M (M.setPhys s₁) fs₁ _ R := ⟨rfl, ho, hrest⟩
  have hsmall := ho.space.1.small
  have hfit := le_npages hle
  have hfilesz : ph.filesz % 2 ^ 32 = ph.filesz := by
    refine Nat.mod_eq_of_lt ?_
    simp only [PGSIZE] at *
    omega
  rw [hfilesz]
  refine .bind (loadseg_runs (M := M.setPhys s₁) hf haligned (Nat.mod_lt _ (by decide)) (by omega) ho
    hL.pages) ?_
  intro ok M' hseg
  have hconf' := hconf.trans hseg.toConfined
  cases ok with
  | true =>
    rw [if_pos rfl]
    have hinside : ph.filesz = 0 ∨ ph.off % 2 ^ 32 + ph.filesz ≤ data.length :=
      (Nat.eq_zero_or_pos _).imp_right (hseg.inside rfl)
    exact hin M' fs₁ hconf' (hseg.loaded hL) ⟨hsize, hwrap, haligned, hinside⟩ hroom
  | false =>
    rw [if_neg Bool.false_ne_true]
    refine .ret (hout M' fs₁ _ hconf' hle fun hc => ?_)
    have := hseg.outside rfl
    have := hc.inside
    omega

theorem loadProgram_runs (hf : Opened sb M.fs ip data) (hoff : off < 2 ^ 32)
    (h : Loaded img M.kernel.phys fs pt tf R L) :
    (loadProgram sb img pt ip m off L.sz).Runs M E fun r M' => ∃ fs',
      ProgRead img M M' fs fs' R data pt tf L off m r.1 r.2 := by
  induction m generalizing M fs L off with
  | zero =>
    refine .ret ⟨fs, .refl h.owned, h.le, fun _ => rfl, fun _ => h,
      fun _ => ⟨.inl rfl, fun ph hph => ?_⟩, fun _ => le_rfl, fun hc => by cases hc⟩
    cases hph
  | succ m ih =>
    have hd := hf.length_lt
    have hlen := part_length_eq hd (n := proghdrSize) (by decide) hoff (by decide)
    rw [loadProgram]
    refine .bind (read_runs hf (by decide)) ?_
    rintro _ M₀ ⟨rfl, rfl⟩
    dsimp only
    by_cases hread : off + proghdrSize ≤ data.length
    swap
    · rw [if_pos fun hc => hread (hlen.mp (Option.some_inj.mp hc))]
      refine .ret ⟨fs, .refused h fun hc => hread ?_⟩
      have := hc.headers
      simp only [proghdrSize] at *
      omega
    rw [if_neg (not_not.mpr (congrArg some (hlen.mpr hread)))]
    have hph : Proghdr.ofBytes (Fs.array (part data off proghdrSize)) = headerAt data off := rfl
    rw [hph]
    have hnext : (off + proghdrSize) % 2 ^ 32 < 2 ^ 32 := Nat.mod_lt _ (by decide)
    by_cases ht : (headerAt data off).type = ELF_PROG_LOAD
    swap
    · rw [if_pos ht]
      refine (ih hf hnext h).mono ?_
      rintro r M' ⟨fs', hr⟩
      exact ⟨fs', hr.skip hread hd ht⟩
    rw [if_neg (not_not.mpr ht)]
    have hno : ¬ (headerAt data off).Fits data → ¬ Fits data off (m + 1) :=
      fun hno hc => hno (((fits_succ hread hd).mp hc).2 ht)
    have hv := (headerAt_lt data off).1
    have hm := (headerAt_lt data off).2
    split
    · exact .ret ⟨fs, .refused h (hno fun hc => absurd hc.size (by omega))⟩
    split
    · exact .ret ⟨fs, .refused h (hno fun hc => absurd hc.wrap (by omega))⟩
    by_cases haligned : (headerAt data off).vaddr % PGSIZE = 0
    swap
    · rw [if_pos haligned]
      exact .ret ⟨fs, .refused h (hno fun hc => haligned hc.aligned)⟩
    rw [if_neg (not_not.mpr haligned)]
    refine loadSegment_runs (headerAt data off) hf h (by omega) (by omega) haligned
      (q := loadProgram sb img pt ip m ((off + proghdrSize) % 2 ^ 32)) ?_ ?_ ?_
    · intro M₁ fs₁ hconf hmem
      refine ⟨fs₁, hconf, h.le, (fun hc => by cases hc), (fun hc => by cases hc),
        (fun hc => by cases hc), (fun hc => by cases hc), fun _ _ hpos K hK => ?_⟩
      have hmemb : headerAt data off ∈ loads data off (m + 1) := by
        rw [loads_cons ht]
        exact List.mem_cons_self
      exact hmem (hpos _ hmemb) K (hK _ hmemb)
    · intro M₁ fs₁ sz hconf hle hfits
      exact ⟨fs₁, hconf, hle, (fun hc => by cases hc), (fun hc => by cases hc),
        (fun hc => by cases hc), (fun hc => by cases hc), fun _ hc => absurd hc (hno hfits)⟩
    · intro M₁ fs₁ hconf hL hfit hroom
      have hf₁ : Opened sb M₁.fs ip data := by
        rw [hconf.phys]
        exact hf
      refine (ih hf₁ hnext hL).mono ?_
      rintro r M' ⟨fs', hr⟩
      exact ⟨fs', hr.cons hread hd ht hfit hconf hroom⟩

end

end Xv6.Process
