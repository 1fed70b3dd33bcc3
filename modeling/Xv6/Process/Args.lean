import Mathlib.Data.List.GetD
import Xv6.Process.Load

/-!
# The stack of a new program

`exec` pushes the argument strings on the stack of the new program, one below the other, and below
them the array of pointers to them. All of this has to fit into one page.
-/

namespace Xv6.Process

open Lib Mem

/-- The strings `argv` are below `sp`, at the addresses `as`, each with its NUL and below the one
    before it. The last one is at `sp'`. -/
inductive Pushed (byte : Bytes) : (sp : Nat) → List (List UInt8) → List Nat → (sp' : Nat) → Prop where
  | nil {sp : Nat} : Pushed byte sp [] [] sp
  | cons {sp a sp' : Nat} {arg : List UInt8} {argv : List (List UInt8)} {as : List Nat}
      (le : a + arg.length + 1 ≤ sp) (copy : ∀ j ≤ arg.length, byte (a + j) = Fs.array arg j)
      (rest : Pushed byte a argv as sp') : Pushed byte sp (arg :: argv) (a :: as) sp'

/-- By how much an aligned stack pointer goes down for `len` bytes. -/
def align16 (len : Nat) : Nat := (len + 15) / 16 * 16

/-- What the strings take on the stack. -/
def stringsSize (argv : List (List UInt8)) : Nat :=
  (argv.map fun arg => align16 (arg.length + 1)).sum

/-- The strings and the pointers to them, with the null pointer, fit into the page of the stack. -/
def ArgsFit (argv : List (List UInt8)) : Prop :=
  argv.length ≤ MAXARG ∧ stringsSize argv + align16 ((argv.length + 1) * 8) ≤ PGSIZE

/-- The array of pointers at `sp`, and the strings that they point to. -/
structure ArgBlock (byte : Bytes) (base top sp : Nat) (argv : List (List UInt8)) (as : List Nat) :
    Prop where
  aligned : sp % 16 = 0
  low : base ≤ sp
  count : as.length = argv.length
  pointers : ∀ i < argv.length, leGet 8 byte (sp + 8 * i) = as.getD i 0
  null : leGet 8 byte (sp + 8 * argv.length) = 0
  high : sp + 8 * (argv.length + 1) ≤ top
  inside : ∀ i < argv.length, sp + 8 * (argv.length + 1) ≤ as.getD i 0 ∧
    as.getD i 0 + (argv.getD i []).length + 1 ≤ top
  strings : ∀ i < argv.length, ∀ j ≤ (argv.getD i []).length,
    byte (as.getD i 0 + j) = Fs.array (argv.getD i []) j
  apart : ∀ i j, i < j → j < argv.length →
    as.getD j 0 + (argv.getD j []).length + 1 ≤ as.getD i 0

section

variable {img : Image} {M : Machine} {fs : List Nat} {R : Multiset Owner} {perm : Nat → Nat}
  {byte byte' : Bytes} {argv : List (List UInt8)} {arg : List UInt8} {as ustack l : List Nat}
  {pt tf n k i j a sp sp' base : Nat} {E : Option String → Prop}

theorem Pushed.le (h : Pushed byte sp argv as sp') : sp' ≤ sp := by
  induction h with
  | nil => exact le_rfl
  | cons hle _ _ ih => omega

theorem Pushed.length (h : Pushed byte sp argv as sp') : as.length = argv.length := by
  induction h with
  | nil => rfl
  | cons _ _ _ ih => rw [List.length_cons, List.length_cons, ih]

theorem Pushed.congr (h : Pushed byte sp argv as sp')
    (hb : ∀ a, sp' ≤ a → a < sp → byte' a = byte a) : Pushed byte' sp argv as sp' := by
  induction h with
  | nil => exact .nil
  | cons hle hcopy hrest ih =>
    have := hrest.le
    refine .cons hle (fun j hj => ?_) (ih fun a ha hlt => hb a ha (by omega))
    rw [hb _ (by omega) (by omega), hcopy j hj]

theorem Pushed.get (h : Pushed byte sp argv as sp') (hi : i < argv.length) :
    sp' ≤ as.getD i 0 ∧ as.getD i 0 + (argv.getD i []).length + 1 ≤ sp ∧
      ∀ j ≤ (argv.getD i []).length, byte (as.getD i 0 + j) = Fs.array (argv.getD i []) j := by
  induction h generalizing i with
  | nil => exact absurd hi (Nat.not_lt_zero i)
  | cons hle hcopy hrest ih =>
    cases i with
    | zero => exact ⟨hrest.le, hle, hcopy⟩
    | succ i =>
      obtain ⟨h1, h2, h3⟩ := ih (Nat.lt_of_succ_lt_succ hi)
      refine ⟨h1, ?_, h3⟩
      simp only [List.getD_cons_succ]
      omega

theorem Pushed.apart (h : Pushed byte sp argv as sp') (hij : i < j) (hj : j < argv.length) :
    as.getD j 0 + (argv.getD j []).length + 1 ≤ as.getD i 0 := by
  induction h generalizing i j with
  | nil => exact absurd hj (Nat.not_lt_zero j)
  | cons hle hcopy hrest ih =>
    cases j with
    | zero => exact absurd hij (Nat.not_lt_zero i)
    | succ j =>
      have hj := Nat.lt_of_succ_lt_succ hj
      cases i with
      | zero => exact (hrest.get hj).2.1
      | succ i => exact ih (Nat.lt_of_succ_lt_succ hij) hj

/-! ## Pointers -/

theorem words_leGet (hi : i < l.length) (hk : l.length ≤ k) (hv : l.getD i 0 < 2 ^ 64) :
    leGet 8 (putBytes byte a (words l) (k * 8)) (a + 8 * i) = l.getD i 0 := by
  refine leGet_leByte (fun j hj => ?_) hv
  rw [putBytes, if_pos (by omega), words, leByte, show a + 8 * i + j - a = 8 * i + j by omega,
    show (8 * i + j) / 8 = i by omega, show (8 * i + j) % 8 = j by omega]

theorem putBytes_outside {f : Bytes} (h : a < sp ∨ sp + n ≤ a) : putBytes byte sp f n a = byte a :=
  if_neg fun hc => by omega

/-! ## Pushing -/

/-- Room for `len` bytes is made on the stack. It does not wrap around if all the bytes are in user
    memory. -/
theorem push_le {len : Nat} (hsp : sp ≤ n * PGSIZE) (hn : n ≤ 32768) (hlen : 0 < len)
    (hin : ∀ i < len, (sub64 sp len - sub64 sp len % 16 + i) / PGSIZE < n) :
    sub64 sp len - sub64 sp len % 16 + len ≤ sp := by
  have hlast := hin (len - 1) (by omega)
  rw [sub64] at *
  simp only [PGSIZE] at *
  omega

theorem push_eq {len : Nat} (hsp : sp < 2 ^ 64) (hal : sp % 16 = 0) (hlen : len ≤ sp) :
    sub64 sp len - sub64 sp len % 16 + align16 len = sp := by
  rw [sub64, align16]
  omega

/-- All of the page of the stack can be written to. -/
theorem in_stack_page {len q : Nat} (hn : 0 < n) (hU : perm (n - 1) &&& PTE_U ≠ 0)
    (hlow : n * PGSIZE - PGSIZE ≤ q) (hhigh : q + len ≤ n * PGSIZE) :
    ∀ i < len, (q + i) / PGSIZE < n ∧ perm ((q + i) / PGSIZE) &&& PTE_U ≠ 0 := by
  intro i hi
  have hpage : (q + i) / PGSIZE = n - 1 := by
    simp only [PGSIZE] at *
    omega
  rw [hpage]
  exact ⟨by omega, hU⟩

theorem pushStrings_runs (h : Owned img M.kernel.phys fs ({.space pt n tf} + R))
    (hsh : Shows M.kernel.phys.mem pt n perm byte) (hn : 0 < n) (hU : perm (n - 1) &&& PTE_U ≠ 0)
    (hsp : sp ≤ n * PGSIZE) (hal : sp % 16 = 0) (hlow : n * PGSIZE - PGSIZE ≤ sp) :
    (pushStrings pt (n * PGSIZE - PGSIZE) argv sp ustack).Runs M E fun r M' =>
      Confined img M M' fs {.space pt n tf} R ∧
      (r = none → ustack.length + argv.length ≤ MAXARG →
        sp < n * PGSIZE - PGSIZE + stringsSize argv) ∧
      ∀ sp' ustack', r = some (sp', ustack') → ∃ byte' as,
        Shows M'.kernel.phys.mem pt n perm byte' ∧ ustack' = ustack ++ as ∧
        Pushed byte' sp argv as sp' ∧ n * PGSIZE - PGSIZE ≤ sp' ∧ sp' % 16 = 0 ∧
        sp' + stringsSize argv = sp ∧ ∀ a, a < sp' ∨ sp ≤ a → byte' a = byte a := by
  have hsmall := h.space.1.small
  have htop : sp < 2 ^ 64 := by
    simp only [PGSIZE] at hsp
    omega
  induction argv generalizing M byte sp ustack with
  | nil =>
    refine .ret ⟨.refl h, (fun hc => by cases hc), fun sp' us' heq => ?_⟩
    cases heq
    exact ⟨byte, [], hsh, (List.append_nil _).symm, .nil, hlow, hal, rfl, fun _ _ => rfl⟩
  | cons arg argv ih =>
    have hsize : stringsSize (arg :: argv) = align16 (arg.length + 1) + stringsSize argv := rfl
    have hpad : arg.length + 1 ≤ align16 (arg.length + 1) := by
      unfold align16
      omega
    rw [pushStrings, hsize]
    split
    · refine .ret ⟨.refl h, fun _ hc => ?_, fun _ _ hc => by cases hc⟩
      rw [List.length_cons] at hc
      omega
    dsimp only
    generalize hq : sub64 sp (arg.length + 1) - sub64 sp (arg.length + 1) % 16 = q
    have hqal : q % 16 = 0 := by omega
    have hdown : arg.length + 1 ≤ sp → q + align16 (arg.length + 1) = sp := by
      intro hle
      rw [← hq]
      exact push_eq htop hal hle
    split
    · exact .ret ⟨.refl h, fun _ _ => by omega, fun _ _ hc => by cases hc⟩
    rename_i hbase
    refine .bind (onMem_runs (copyout_shows h)) ?_
    rintro r _ ⟨s₁, rfl, h₁, hrest, hin, hput⟩
    have hconf : Confined img M (M.setPhys s₁) fs {.space pt n tf} R := ⟨rfl, h₁, hrest⟩
    obtain ⟨hall, hshows⟩ := hput perm byte hsh
    cases r with
    | false =>
      rw [if_neg Bool.false_ne_true]
      refine .ret ⟨hconf, fun _ _ => ?_, fun _ _ hc => by cases hc⟩
      by_contra hroom
      exact Bool.false_ne_true (hall (in_stack_page hn hU (not_lt.mp hbase) (by omega)))
    | true =>
      rw [if_pos rfl]
      have hle : q + (arg.length + 1) ≤ sp := by
        have hin := hin rfl
        rw [← hq] at hin ⊢
        exact push_le hsp hsmall (Nat.succ_pos _) hin
      have hdown := hdown (by omega)
      refine (ih (M := M.setPhys s₁) h₁ (hshows rfl) (by omega) hqal (not_lt.mp hbase)
        (by omega)).mono ?_
      rintro r M' ⟨hconf', hnone, hsome⟩
      refine ⟨hconf.trans hconf', fun hr hc => ?_, fun sp' us' heq => ?_⟩
      · have := hnone hr (by simp only [List.length_append, List.length_cons, List.length_nil] at hc ⊢; omega)
        omega
      obtain ⟨byte', as, hsh', hus, hpushed, hlow', hal', hsum, hout⟩ := hsome sp' us' heq
      have hle' := hpushed.le
      refine ⟨byte', q :: as, hsh', by rw [hus, List.append_assoc]; rfl,
        .cons (by omega) (fun j hj => ?_) hpushed, hlow', hal', by omega, fun a ha => ?_⟩
      · rw [hout _ (.inr (by omega)), putBytes, if_pos (by omega), Nat.add_sub_cancel_left]
      · rw [hout a (by omega), putBytes_outside (by omega)]

theorem pushArgs_runs (h : Owned img M.kernel.phys fs ({.space pt n tf} + R))
    (hsh : Shows M.kernel.phys.mem pt n perm byte) (hn : 0 < n)
    (hU : perm (n - 1) &&& PTE_U ≠ 0) :
    (pushArgs pt (n * PGSIZE) argv).Runs M E fun r M' =>
      Confined img M M' fs {.space pt n tf} R ∧ (r = none → ¬ ArgsFit argv) ∧
      ∀ sp, r = some sp → ∃ byte' as, Shows M'.kernel.phys.mem pt n perm byte' ∧
        ArgBlock byte' (n * PGSIZE - PGSIZE) (n * PGSIZE) sp argv as ∧
        ∀ a < n * PGSIZE - PGSIZE, byte' a = byte a := by
  have hsmall := h.space.1.small
  rw [pushArgs]
  refine .bind (pushStrings_runs h hsh hn hU le_rfl (by simp only [PGSIZE]; omega) (Nat.sub_le _ _)) ?_
  rintro r M₁ ⟨hconf, hnone, hsome⟩
  cases r with
  | none =>
    refine .ret ⟨hconf, fun _ hfit => ?_, fun _ hc => by cases hc⟩
    have hfew := hnone rfl ((zero_add _).trans_le hfit.1)
    have hroom := hfit.2
    simp only [PGSIZE] at *
    omega
  | some r =>
    obtain ⟨sp, ustack⟩ := r
    obtain ⟨byte₁, as, hsh₁, hus, hpushed, hlow, hal, hsum, hout⟩ := hsome sp ustack rfl
    rw [List.nil_append] at hus
    subst hus
    have hle := hpushed.le
    have hcount := hpushed.length
    dsimp only
    generalize hq : sub64 sp ((ustack.length + 1) * 8) - sub64 sp ((ustack.length + 1) * 8) % 16 = q
    have hqal : q % 16 = 0 := by omega
    -- the array fits below the strings
    have hfits : ArgsFit argv → n * PGSIZE - PGSIZE ≤ q ∧ q + (ustack.length + 1) * 8 ≤ n * PGSIZE := by
      intro hfit
      have hroom := hfit.2
      have hpad : (argv.length + 1) * 8 ≤ align16 ((argv.length + 1) * 8) := by
        unfold align16
        omega
      have hdown : _ + align16 ((ustack.length + 1) * 8) = sp :=
        push_eq (by simp only [PGSIZE] at hle; omega) hal (by simp only [PGSIZE] at *; omega)
      rw [hq] at hdown
      rw [hcount] at hdown ⊢
      simp only [PGSIZE] at *
      omega
    split
    · next hbase =>
      refine .ret ⟨hconf, fun _ hfit => ?_, fun _ hc => by cases hc⟩
      exact absurd hbase (not_lt.mpr (hfits hfit).1)
    rename_i hbase
    refine .bind (onMem_runs (copyout_shows hconf.owned)) ?_
    rintro r _ ⟨s₂, rfl, h₂, hrest₂, hin, hput⟩
    have hconf₂ : Confined img M₁ (M₁.setPhys s₂) fs {.space pt n tf} R := ⟨rfl, h₂, hrest₂⟩
    obtain ⟨hall, hshows⟩ := hput perm byte₁ hsh₁
    cases r with
    | false =>
      rw [if_neg Bool.false_ne_true]
      refine .ret ⟨hconf.trans hconf₂, fun _ hfit => ?_, fun _ hc => by cases hc⟩
      obtain ⟨hlow', hhigh⟩ := hfits hfit
      exact Bool.false_ne_true (hall (in_stack_page hn hU hlow' hhigh))
    | true =>
      rw [if_pos rfl]
      have hroom : q + (ustack.length + 1) * 8 ≤ sp := by
        have hin := hin rfl
        rw [← hq] at hin ⊢
        exact push_le hle hsmall (by omega) hin
      have hdown : ∀ i < argv.length, ustack.getD i 0 < 2 ^ 64 := by
        intro i hi
        have := (hpushed.get hi).2.1
        simp only [PGSIZE] at *
        omega
      refine .ret ⟨hconf.trans hconf₂, (fun hc => by cases hc), fun sp₂ heq => ?_⟩
      cases heq
      have hpushed₂ : Pushed (putBytes byte₁ q (words (ustack ++ [0])) ((ustack.length + 1) * 8))
          (n * PGSIZE) argv ustack sp := hpushed.congr fun a ha _ => putBytes_outside (by omega)
      refine ⟨_, ustack, hshows rfl, ?_, fun a ha => ?_⟩
      · refine ⟨hqal, not_lt.mp hbase, hcount, fun i hi => ?_, ?_, by omega, fun i hi => ?_,
          fun i hi => (hpushed₂.get hi).2.2, fun i j hij hj => hpushed₂.apart hij hj⟩
        · have hget : (ustack ++ [0]).getD i 0 = ustack.getD i 0 :=
            List.getD_append _ _ _ _ (by omega)
          rw [words_leGet (by simp; omega) (by simp) (by rw [hget]; exact hdown i hi), hget]
        · have hget : (ustack ++ [0]).getD argv.length 0 = 0 := by
            rw [List.getD_append_right _ _ _ _ (by omega), hcount, Nat.sub_self]
            rfl
          rw [words_leGet (by simp; omega) (by simp) (by rw [hget]; decide), hget]
        · obtain ⟨h1, h2, -⟩ := hpushed₂.get hi
          omega
      · rw [putBytes_outside (by omega), hout a (by omega)]

end

end Xv6.Process
