import Xv6.Shell.Grammar

/-!
# The parser and the grammar

Both directions for the functions that call each other. Each of them takes off at most as many
tokens as there are, and four calls are made between two tokens, so `4 * n + 4` is enough fuel for
`n` tokens.
-/

namespace Xv6.Shell

open List

/-- The function for a nonterminal. -/
def parse (line : Line) : Nonterminal → Nat → Nat → R (Cmd × Nat)
  | .line => parseline line
  | .pipe => parsepipe line
  | .exec => parseexec line

/-- How much fuel a function needs besides what it needs for the tokens. -/
def need : Nonterminal → Nat
  | .line => 4
  | .pipe => 3
  | .exec => 2

/-- What can follow, besides the end. -/
def follow : Nonterminal → List UInt8
  | .line => [rpar]
  | .pipe => [rpar, amp, semi]
  | .exec => [rpar, amp, semi, bar]

section

variable {line : Line} {s fuel k : Nat} {ts us vs zs : List Tok} {t : Tok} {cmd : Cmd} {c : UInt8}
  {X : Nonterminal} {rs : List Redir} {ws : List Word}

/-! ## One operator -/

/-- The peek for one operator, which is not `>`. -/
theorem starts_one (ht : Tok.ofChar c = some t) (hgt : c ≠ gt) (h : starts [c] ts = true) :
    ∃ us, ts = t :: us := by
  obtain ⟨u, us, d, rfl, hd, hin⟩ := starts_iff.mp h
  obtain rfl := mem_singleton.mp hin
  refine ⟨us, ?_⟩
  cases u with
  | word w => cases hd
  | gt => exact absurd (Option.some.inj hd).symm hgt
  | gtgt => exact absurd (Option.some.inj hd).symm hgt
  | _ =>
    cases hd
    cases ht
    rfl

theorem peek_one (hc : c ∈ symbols) (h : At line s ts) :
    peek line [c] s = .ok (starts [c] ts, nextChar line s) :=
  peek_eq (fun d hd => by rwa [mem_singleton.mp hd]) h

/-! ## `&` -/

theorem parsebacks_eq (cmd : Cmd) (h : At line s (replicate k .amp ++ us)) (hus : starts [amp] us = false)
    (hfuel : k < fuel) :
    ∃ s', parsebacks line fuel cmd s = .ok (Cmd.back^[k] cmd, s') ∧ At line s' us := by
  induction k generalizing s fuel cmd with
  | zero =>
    obtain _ | fuel := fuel
    · omega
    refine ⟨nextChar line s, ?_, h.next⟩
    unfold parsebacks
    rw [peek_one (by decide) h, ok_bind, show starts [amp] (replicate 0 .amp ++ us) = false
      from hus]
    rfl
  | succ k ih =>
    obtain _ | fuel := fuel
    · omega
    rw [replicate_succ, cons_append] at h
    obtain ⟨q, e, s₁, htok, hat, -⟩ := gettoken_cons h.next
    obtain ⟨s', hres, hat'⟩ := ih (.back cmd) hat (Nat.lt_of_succ_lt_succ hfuel)
    refine ⟨s', ?_, hat'⟩
    unfold parsebacks
    rw [peek_one (by decide) h, ok_bind]
    show (gettoken line (nextChar line s) >>= _) = _
    rw [htok, ok_bind, hres, Function.iterate_succ_apply]

/-- The `&` at the front of the tokens. -/
theorem exists_backs (ts : List Tok) :
    ∃ k us, ts = replicate k .amp ++ us ∧ starts [amp] us = false := by
  induction ts with
  | nil => exact ⟨0, [], rfl, rfl⟩
  | cons t ts ih =>
    cases hstarts : starts [amp] (t :: ts) with
    | false => exact ⟨0, t :: ts, rfl, hstarts⟩
    | true =>
      obtain ⟨us, heq⟩ := starts_one (c := amp) rfl (by decide) hstarts
      obtain ⟨k, us, hts, hus⟩ := ih
      cases heq
      exact ⟨k + 1, us, by rw [replicate_succ, cons_append, ← hts], hus⟩

/-! ## What is returned has a derivation -/

/-- What a function returns from the tokens `ts`. -/
def Parsed (line : Line) (X : Nonterminal) (ts : List Tok) (x : Cmd × Nat) : Prop :=
  ∃ us vs, ts = us ++ vs ∧ Derives X us x.1 ∧ At line x.2 vs

/-- With fuel `fuel`, a function returns what has a derivation, or panics. -/
def Sound (line : Line) (X : Nonterminal) (fuel : Nat) : Prop :=
  ∀ s ts, At line s ts → 4 * ts.length + need X ≤ fuel →
    Yields (parse line X fuel s) (Parsed line X ts)

theorem parseline_sound (hpipe : Sound line .pipe fuel) (hline : Sound line .line fuel) :
    Sound line .line (fuel + 1) := by
  intro s ts hat hfuel
  simp only [need] at hfuel
  simp only [parse, parseline]
  refine (hpipe s ts hat (by simp only [need]; omega)).bind ?_
  rintro x ⟨us, vs, rfl, hder, hat₁⟩
  obtain ⟨k, zs, rfl, hzs⟩ := exists_backs vs
  simp only [length_append, length_replicate] at hfuel
  obtain ⟨s₂, hback, hat₂⟩ := parsebacks_eq x.1 hat₁ hzs (show k < fuel by omega)
  rw [hback, ok_bind, peek_one (by decide) hat₂, ok_bind]
  cases hsemi : starts [semi] zs with
  | false =>
    refine .ok ⟨us ++ replicate k .amp, zs, ?_, .back k hder, hat₂.next⟩
    rw [append_assoc]
  | true =>
    obtain ⟨rest, rfl⟩ := starts_one (c := semi) rfl (by decide) hsemi
    obtain ⟨q, e, s₃, htok, hat₃, -⟩ := gettoken_cons hat₂.next
    simp only [length_cons] at hfuel
    show Yields (gettoken line (nextChar line s₂) >>= _) _
    rw [htok, ok_bind]
    refine (hline s₃ rest hat₃ (by simp only [need]; omega)).bind ?_
    rintro y ⟨us', vs', rfl, hder', hat'⟩
    exact .ok ⟨us ++ (replicate k .amp ++ .semi :: us'), vs', by simp, .list k hder hder', hat'⟩

theorem parsepipe_sound (hexec : Sound line .exec fuel) (hpipe : Sound line .pipe fuel) :
    Sound line .pipe (fuel + 1) := by
  intro s ts hat hfuel
  simp only [need] at hfuel
  simp only [parse, parsepipe]
  refine (hexec s ts hat (by simp only [need]; omega)).bind ?_
  rintro x ⟨us, vs, rfl, hder, hat₁⟩
  rw [peek_one (by decide) hat₁, ok_bind]
  cases hbar : starts [bar] vs with
  | false => exact .ok ⟨us, vs, rfl, .single hder, hat₁.next⟩
  | true =>
    obtain ⟨rest, rfl⟩ := starts_one (c := bar) rfl (by decide) hbar
    obtain ⟨q, e, s₂, htok, hat₂, -⟩ := gettoken_cons hat₁.next
    simp only [length_append, length_cons] at hfuel
    show Yields (gettoken line (nextChar line x.2) >>= _) _
    rw [htok, ok_bind]
    refine (hpipe s₂ rest hat₂ (by simp only [need]; omega)).bind ?_
    rintro y ⟨us', vs', rfl, hder', hat'⟩
    exact .ok ⟨us ++ .bar :: us', vs', by simp, .pipe hder hder', hat'⟩

theorem parseblock_sound (hline : Sound line .line fuel) (hat : At line s (.lpar :: ts))
    (hfuel : 4 * ts.length + 4 ≤ fuel) :
    Yields (parseblock line (fuel + 1) s) (Parsed line .exec (.lpar :: ts)) := by
  simp only [parseblock]
  rw [peek_one (by decide) hat, ok_bind]
  obtain ⟨q, e, s₁, htok, hat₁, -⟩ := gettoken_cons hat.next
  show Yields (gettoken line (nextChar line s) >>= _) _
  rw [htok, ok_bind]
  refine (hline s₁ ts hat₁ hfuel).bind ?_
  rintro x ⟨us, vs, rfl, hder, hat₂⟩
  rw [peek_one (by decide) hat₂, ok_bind]
  cases hpar : starts [rpar] vs with
  | false => exact .panic
  | true =>
    obtain ⟨rest, rfl⟩ := starts_one (c := rpar) rfl (by decide) hpar
    obtain ⟨q', e', s₃, htok', hat₃, -⟩ := gettoken_cons hat₂.next
    simp only [length_append, length_cons] at hfuel
    show Yields (gettoken line (nextChar line x.2) >>= _) _
    rw [htok', ok_bind]
    refine (parseredirs_sound hat₃ (by omega)).mono ?_
    rintro y ⟨us', vs', rs, rfl, hredirs, hy, hat', -⟩
    refine ⟨.lpar :: (us ++ .rpar :: us'), vs', by simp, ?_, hat'⟩
    rw [hy]
    exact .block hder hredirs

theorem parseexec_sound (hline : ∀ fuel', fuel' < fuel → Sound line .line fuel') :
    Sound line .exec (fuel + 1) := by
  intro s ts hat hfuel
  simp only [need] at hfuel
  simp only [parse, parseexec]
  rw [peek_one (by decide) hat, ok_bind]
  cases hpar : starts [lpar] ts with
  | true =>
    obtain ⟨rest, rfl⟩ := starts_one (c := lpar) rfl (by decide) hpar
    simp only [length_cons] at hfuel
    obtain _ | fuel := fuel
    · omega
    exact parseblock_sound (hline fuel (Nat.lt_succ_self _)) hat.next (by omega)
  | false =>
    refine (parseredirs_sound hat.next (show ts.length < fuel by omega)).bind ?_
    rintro x ⟨us, vs, rs, rfl, hredirs, hx, hat₁, hvs⟩
    rw [hx]
    simp only [length_append] at hfuel
    refine (parseargs_sound [] rs hat₁ (by decide) (show vs.length < fuel by omega) hvs).mono ?_
    rintro y ⟨us', vs', ws, rs', rfl, hargs, hfew, hy, hat'⟩
    refine ⟨us ++ us', vs', by simp, ?_, hat'⟩
    rw [hy]
    exact .simple hredirs hargs hfew

/-- The parser returns what has a derivation, or panics. -/
theorem parse_sound (line : Line) (X : Nonterminal) (fuel : Nat) : Sound line X fuel := by
  induction fuel using Nat.strong_induction_on generalizing X with
  | _ fuel ih =>
    cases fuel with
    | zero =>
      intro s ts _ hfuel
      cases X <;> simp [need] at hfuel
    | succ fuel =>
      have hprev : ∀ X, Sound line X fuel := fun X => ih fuel (Nat.lt_succ_self _) X
      cases X with
      | line => exact parseline_sound (hprev .pipe) (hprev .line)
      | pipe => exact parsepipe_sound (hprev .exec) (hprev .pipe)
      | exec => exact parseexec_sound fun f hf => ih f (by omega) .line

/-! ## What has a derivation is returned -/

theorem endsAt_backs (k : Nat) (h : EndsAt (follow .pipe) us) :
    EndsAt (follow .pipe) (replicate k .amp ++ us) := by
  cases k with
  | zero => exact h
  | succ k => exact endsAt_cons (c := amp) rfl (by decide)

/-- A simple command does not start with a parenthesis. -/
theorem simple_starts {rs' : List Redir} (hredirs : Redirs us rs) (hargs : Args vs ws rs')
    (hzs : EndsAt (follow .exec) zs) : starts [lpar] (us ++ (vs ++ zs)) = false := by
  cases hredirs with
  | nil =>
    cases hargs with
    | nil => exact hzs.not_starts (by decide +kernel)
    | cons => rfl
  | @cons t w r us rs hop hrest =>
    cases t with
    | lt => rfl
    | gt => rfl
    | gtgt => rfl
    | _ => cases hop

theorem parse_complete (h : Derives X us cmd) (hvs : EndsAt (follow X) vs)
    (hat : At line s (us ++ vs)) (hfuel : 4 * (us ++ vs).length + need X ≤ fuel) :
    ∃ s', parse line X fuel s = .ok (cmd, s') ∧ At line s' vs := by
  induction h generalizing vs s fuel with
  | @back us cmd k hpipe ih =>
    rw [append_assoc] at hat hfuel
    simp only [need] at hfuel
    obtain _ | fuel := fuel
    · omega
    obtain ⟨s₁, hres, hat₁⟩ := ih (endsAt_backs k (hvs.mono (by decide +kernel))) hat
      (show _ ≤ fuel by simp only [need]; omega)
    simp only [length_append, length_replicate] at hfuel
    obtain ⟨s₂, hback, hat₂⟩ := parsebacks_eq cmd hat₁ (hvs.not_starts (by decide +kernel))
      (show k < fuel by omega)
    refine ⟨nextChar line s₂, ?_, hat₂.next⟩
    simp only [parse, parseline] at hres ⊢
    rw [hres, ok_bind, hback, ok_bind, peek_one (by decide) hat₂, ok_bind,
      hvs.not_starts (by decide +kernel)]
    rfl
  | @list us vs' cmd rest k hpipe hline ih ih' =>
    simp only [append_assoc, cons_append] at hat hfuel
    simp only [need] at hfuel
    obtain _ | fuel := fuel
    · omega
    obtain ⟨s₁, hres, hat₁⟩ := ih (endsAt_backs k (endsAt_cons (c := semi) rfl (by decide))) hat
      (show _ ≤ fuel by simp only [need]; omega)
    simp only [length_append, length_replicate, length_cons] at hfuel
    obtain ⟨s₂, hback, hat₂⟩ := parsebacks_eq cmd hat₁ rfl (show k < fuel by omega)
    obtain ⟨q, e, s₃, htok, hat₃, -⟩ := gettoken_cons hat₂.next
    obtain ⟨s', hrest, hat'⟩ := ih' hvs hat₃
      (show _ ≤ fuel by simp only [need, length_append]; omega)
    refine ⟨s', ?_, hat'⟩
    simp only [parse, parseline] at hres hrest ⊢
    rw [hres, ok_bind, hback, ok_bind, peek_one (by decide) hat₂, ok_bind]
    show (gettoken line (nextChar line s₂) >>= _) = _
    rw [htok, ok_bind, hrest]
    rfl
  | @single us cmd hexec ih =>
    simp only [need] at hfuel
    obtain _ | fuel := fuel
    · omega
    obtain ⟨s₁, hres, hat₁⟩ := ih (hvs.mono (by decide +kernel)) hat
      (show _ ≤ fuel by simp only [need]; omega)
    refine ⟨nextChar line s₁, ?_, hat₁.next⟩
    simp only [parse, parsepipe] at hres ⊢
    rw [hres, ok_bind, peek_one (by decide) hat₁, ok_bind, hvs.not_starts (by decide +kernel)]
    rfl
  | @pipe us vs' cmd rest hexec hpipe ih ih' =>
    rw [append_assoc, cons_append] at hat hfuel
    simp only [need] at hfuel
    obtain _ | fuel := fuel
    · omega
    obtain ⟨s₁, hres, hat₁⟩ := ih (endsAt_cons (c := bar) rfl (by decide)) hat
      (show _ ≤ fuel by simp only [need]; omega)
    obtain ⟨q, e, s₂, htok, hat₂, -⟩ := gettoken_cons hat₁.next
    simp only [length_append, length_cons] at hfuel
    obtain ⟨s', hrest, hat'⟩ := ih' hvs hat₂
      (show _ ≤ fuel by simp only [need, length_append]; omega)
    refine ⟨s', ?_, hat'⟩
    simp only [parse, parsepipe] at hres hrest ⊢
    rw [hres, ok_bind, peek_one (by decide) hat₁, ok_bind]
    show (gettoken line (nextChar line s₁) >>= _) = _
    rw [htok, ok_bind, hrest]
    rfl
  | @block us vs' cmd rs hline hredirs ih =>
    simp only [cons_append, append_assoc] at hat hfuel
    simp only [need, length_cons] at hfuel
    obtain _ | fuel := fuel
    · omega
    obtain _ | fuel := fuel
    · omega
    have hat₀ := hat.next
    obtain ⟨q, e, s₁, htok, hat₁, -⟩ := gettoken_cons hat₀.next
    obtain ⟨s₂, hres, hat₂⟩ := ih (endsAt_cons (c := rpar) rfl (by decide)) hat₁
      (show _ ≤ fuel by simp only [need]; omega)
    obtain ⟨q', e', s₃, htok', hat₃, -⟩ := gettoken_cons hat₂.next
    simp only [length_append, length_cons] at hfuel
    obtain ⟨s', hred, hat'⟩ := parseredirs_complete cmd hredirs (hvs.not_starts (by decide +kernel)) hat₃
      (show vs'.length < fuel by omega)
    refine ⟨s', ?_, hat'⟩
    simp only [parse, parseexec] at hres ⊢
    rw [peek_one (by decide) hat, ok_bind]
    show parseblock line (fuel + 1) (nextChar line s) = _
    simp only [parseblock]
    rw [peek_one (by decide) hat₀, ok_bind]
    show (gettoken line (nextChar line (nextChar line s)) >>= _) = _
    rw [htok, ok_bind, hres, ok_bind, peek_one (by decide) hat₂, ok_bind]
    show (gettoken line (nextChar line s₂) >>= _) = _
    rw [htok', ok_bind, hred]
  | @simple us vs' ws rs rs' hredirs hargs hfew =>
    rw [append_assoc] at hat hfuel
    simp only [need, length_append] at hfuel
    obtain _ | fuel := fuel
    · omega
    have hend : EndsAt [bar, rpar, amp, semi] vs := hvs.mono (by decide +kernel)
    obtain ⟨s₁, hred, hat₁⟩ := parseredirs_complete (.exec []) hredirs (args_starts hargs hend)
      hat.next (show us.length < fuel by omega)
    obtain ⟨s', hres, hat'⟩ := parseargs_complete 0 [] rs hargs hend hat₁ (by omega)
      (show (vs' ++ vs).length < fuel by rw [length_append]; omega)
    refine ⟨s', ?_, hat'⟩
    simp only [parse, parseexec]
    rw [peek_one (by decide) hat, ok_bind, simple_starts hredirs hargs hvs]
    show (parseredirs line fuel (.exec []) (nextChar line s) >>= _) = _
    rw [hred, ok_bind]
    exact hres

end

end Xv6.Shell
