import Xv6.Shell.Tokens

/-!
# The grammar of the shell

```
line  := pipe '&'* (';' line)?
pipe  := exec ('|' pipe)?
exec  := '(' line ')' redir* | redir* (word redir*)*
redir := ('<' | '>' | '>>') word
```

`Derives` is this grammar over tokens, with the command that a derivation stands for: pipes and
lists are nested to the right, each redirection is a node around the command, the first one
innermost, and a simple command has fewer than `MAXARGS` words.

What the parser returns has a derivation, and with enough fuel it returns or panics: this is
`parse_sound`, for the functions all at once, by induction on the fuel. What has a derivation is
returned if a token follows that can follow there: this is `parse_complete`, by induction on the
derivation.
-/

namespace Xv6.Shell

open List

/-! ## Derivations -/

structure Redir where
  file : Word
  mode : Nat
  fd : Nat

/-- The redirection of an operator with a file. -/
def Tok.redir (w : Word) : Tok → Option Redir
  | .lt => some ⟨w, O_RDONLY, 0⟩
  | .gt => some ⟨w, O_WRONLY ||| O_CREATE ||| O_TRUNC, 1⟩
  | .gtgt => some ⟨w, O_WRONLY ||| O_CREATE, 1⟩
  | _ => none

/-- A command with redirections around it. -/
def wrap (cmd : Cmd) (rs : List Redir) : Cmd :=
  rs.foldl (fun cmd r => .redir cmd r.file r.mode r.fd) cmd

/-- `redir*` -/
inductive Redirs : List Tok → List Redir → Prop
  | nil : Redirs [] []
  | cons {t : Tok} {w : Word} {r : Redir} {us : List Tok} {rs : List Redir} (op : t.redir w = some r)
      (rest : Redirs us rs) : Redirs (t :: .word w :: us) (r :: rs)

/-- `(word redir*)*` -/
inductive Args : List Tok → List Word → List Redir → Prop
  | nil : Args [] [] []
  | cons {w : Word} {us vs : List Tok} {ws : List Word} {rs rs' : List Redir} (redirs : Redirs us rs)
      (rest : Args vs ws rs') : Args (.word w :: (us ++ vs)) (w :: ws) (rs ++ rs')

inductive Nonterminal where
  | line
  | pipe
  | exec

inductive Derives : Nonterminal → List Tok → Cmd → Prop
  | back {us : List Tok} {cmd : Cmd} (k : Nat) (pipe : Derives .pipe us cmd) :
      Derives .line (us ++ replicate k .amp) (Cmd.back^[k] cmd)
  | list {us vs : List Tok} {cmd rest : Cmd} (k : Nat) (pipe : Derives .pipe us cmd)
      (line : Derives .line vs rest) :
      Derives .line (us ++ (replicate k .amp ++ .semi :: vs)) (.list (Cmd.back^[k] cmd) rest)
  | single {us : List Tok} {cmd : Cmd} (exec : Derives .exec us cmd) : Derives .pipe us cmd
  | pipe {us vs : List Tok} {cmd rest : Cmd} (exec : Derives .exec us cmd)
      (pipe : Derives .pipe vs rest) : Derives .pipe (us ++ .bar :: vs) (.pipe cmd rest)
  | block {us vs : List Tok} {cmd : Cmd} {rs : List Redir} (line : Derives .line us cmd)
      (redirs : Redirs vs rs) : Derives .exec (.lpar :: (us ++ .rpar :: vs)) (wrap cmd rs)
  | simple {us vs : List Tok} {ws : List Word} {rs rs' : List Redir} (redirs : Redirs us rs)
      (args : Args vs ws rs') (few : ws.length < MAXARGS) :
      Derives .exec (us ++ vs) (wrap (.exec ws) (rs ++ rs'))

/-! ## Calls that return or panic -/

/-- The call returns something that `Q` holds of, or it panics. -/
def Yields {α : Type} (r : R α) (Q : α → Prop) : Prop :=
  match r with
  | .ok a => Q a
  | .error (.panic _) => True
  | .error _ => False

section

variable {α β : Type} {P : α → Prop} {Q : β → Prop}

theorem Yields.ok {a : α} (h : P a) : Yields (.ok a) P := h

theorem Yields.panic {msg : String} : Yields (panic msg) P := trivial

theorem Yields.bind {r : R α} {f : α → R β} (h : Yields r P) (hf : ∀ a, P a → Yields (f a) Q) :
    Yields (r >>= f) Q := by
  cases r with
  | ok a => exact hf a h
  | error e =>
    cases e with
    | panic msg => trivial
    | fault => exact h
    | fuel => exact h

theorem Yields.mono {r : R α} {Q : α → Prop} (h : Yields r P) (hQ : ∀ a, P a → Q a) :
    Yields r Q := by
  cases r with
  | ok a => exact hQ a h
  | error e =>
    cases e with
    | panic msg => trivial
    | fault => exact h
    | fuel => exact h

end

section

variable {line : Line} {s fuel k : Nat} {ts us vs : List Tok} {t : Tok} {w : Word} {cmd : Cmd}
  {toks toks' : List UInt8} {rs rs' : List Redir} {ws : List Word}

/-! ## What follows -/

/-- The tokens are at an end, or at one of `toks`. -/
def EndsAt (toks : List UInt8) (ts : List Tok) : Prop := ts = [] ∨ starts toks ts = true

theorem EndsAt.mono (h : EndsAt toks ts) (hsub : ∀ c ∈ toks, c ∈ toks') : EndsAt toks' ts := by
  rcases h with h | h
  · exact .inl h
  · obtain ⟨t, us, c, hts, hc, hin⟩ := starts_iff.mp h
    exact .inr (starts_iff.mpr ⟨t, us, c, hts, hc, hsub c hin⟩)

theorem EndsAt.not_starts (h : EndsAt toks ts) (hdis : ∀ c ∈ toks, c ∉ toks') :
    starts toks' ts = false := by
  rcases h with rfl | h
  · rfl
  · obtain ⟨t, us, c, rfl, hc, hin⟩ := starts_iff.mp h
    simpa [starts, hc] using hdis c hin

theorem endsAt_cons {c : UInt8} (hc : t.sym = some c) (hin : c ∈ toks) : EndsAt toks (t :: ts) :=
  .inr (starts_iff.mpr ⟨t, ts, c, rfl, hc, hin⟩)

/-! ## Redirections -/

theorem redir_starts {r : Redir} (h : t.redir w = some r) : starts [lt, gt] (t :: ts) = true := by
  cases t with
  | lt => rfl
  | gt => rfl
  | gtgt => rfl
  | _ => cases h

theorem starts_redir (h : starts [lt, gt] (t :: ts) = true) (w : Word) : ∃ r, t.redir w = some r := by
  cases t with
  | lt => exact ⟨_, rfl⟩
  | gt => exact ⟨_, rfl⟩
  | gtgt => exact ⟨_, rfl⟩
  | _ => cases h

theorem redircmd_eq {r : Redir} (h : t.redir w = some r) :
    redircmd t.code cmd w = .redir cmd r.file r.mode r.fd := by
  cases t with
  | lt => cases h; rfl
  | gt => cases h; rfl
  | gtgt => cases h; rfl
  | _ => cases h

theorem code_word (h : t.code = letterA) : ∃ w, t = .word w := by
  cases t with
  | word w => exact ⟨w, rfl⟩
  | _ => cases h

theorem code_of_word : (Tok.word w).code = letterA := rfl

theorem code_ne_zero (t : Tok) : t.code ≠ 0 := by
  cases t with
  | word w => exact show letterA ≠ 0 by decide
  | _ => decide

/-- The peek of `parseredirs`. -/
theorem peek_redir (h : At line s ts) :
    peek line [lt, gt] s = .ok (starts [lt, gt] ts, nextChar line s) :=
  peek_eq (by decide +kernel) h

theorem parseredirs_complete (cmd : Cmd) (h : Redirs us rs) (hvs : starts [lt, gt] vs = false)
    (hat : At line s (us ++ vs)) (hfuel : us.length < fuel) :
    ∃ s', parseredirs line fuel cmd s = .ok (wrap cmd rs, s') ∧ At line s' vs := by
  induction h generalizing s fuel cmd with
  | nil =>
    obtain _ | fuel := fuel
    · omega
    refine ⟨nextChar line s, ?_, hat.next⟩
    unfold parseredirs
    rw [peek_redir hat, ok_bind, nil_append, hvs]
    rfl
  | @cons t w r us rs hop hrest ih =>
    obtain _ | fuel := fuel
    · omega
    obtain ⟨q, e, s₁, htok, hat₁, -⟩ := gettoken_cons hat.next
    obtain ⟨q', e', s₂, hword, hat₂, hspans⟩ := gettoken_cons hat₁
    obtain rfl := hspans w rfl
    simp only [length_cons] at hfuel
    obtain ⟨s', hres, hat'⟩ := ih (.redir cmd r.file r.mode r.fd) hat₂ (show us.length < fuel by omega)
    refine ⟨s', ?_, hat'⟩
    unfold parseredirs
    rw [peek_redir hat, ok_bind]
    simp only [cons_append, redir_starts hop, if_true]
    rw [htok, ok_bind, hword, ok_bind]
    simp only [code_of_word, ne_eq, not_true_eq_false, if_false]
    rw [redircmd_eq hop]
    exact hres

theorem parseredirs_sound (hat : At line s ts) (hfuel : ts.length < fuel) :
    Yields (parseredirs line fuel cmd s) fun x => ∃ us vs rs, ts = us ++ vs ∧ Redirs us rs ∧
      x.1 = wrap cmd rs ∧ At line x.2 vs ∧ starts [lt, gt] vs = false := by
  induction fuel generalizing s ts cmd with
  | zero => omega
  | succ fuel ih =>
    unfold parseredirs
    rw [peek_redir hat, ok_bind]
    cases hstarts : starts [lt, gt] ts with
    | false => exact .ok ⟨[], ts, [], rfl, .nil, rfl, hat.next, hstarts⟩
    | true =>
      simp only [if_true]
      cases ts with
      | nil => cases hstarts
      | cons t ts =>
        obtain ⟨q, e, s₁, htok, hat₁, -⟩ := gettoken_cons hat.next
        rw [htok, ok_bind]
        cases ts with
        | nil =>
          rw [(gettoken_nil hat₁).1, ok_bind]
          exact .panic
        | cons u ts =>
          obtain ⟨q', e', s₂, hword, hat₂, hspans⟩ := gettoken_cons hat₁
          rw [hword, ok_bind]
          by_cases hu : u.code = letterA
          · obtain ⟨w, rfl⟩ := code_word hu
            obtain rfl := hspans w rfl
            obtain ⟨r, hop⟩ := starts_redir hstarts ⟨q', e'⟩
            simp only [length_cons] at hfuel
            simp only [code_of_word, ne_eq, not_true_eq_false, if_false]
            rw [redircmd_eq hop]
            refine Yields.mono (ih hat₂ (by omega)) ?_
            rintro x ⟨us, vs, rs, rfl, hredirs, hx, hat', hvs⟩
            exact ⟨t :: .word ⟨q', e'⟩ :: us, vs, r :: rs, rfl, .cons hop hredirs, hx, hat', hvs⟩
          · simp only [ne_eq, hu, not_false_eq_true, if_true]
            exact .panic

/-! ## Simple commands -/

theorem addArg_wrap (w : Word) (rs : List Redir) (cmd : Cmd) :
    (wrap cmd rs).addArg w = wrap (cmd.addArg w) rs := by
  induction rs generalizing cmd with
  | nil => rfl
  | cons r rs ih =>
    show (wrap (.redir cmd r.file r.mode r.fd) rs).addArg w = _
    rw [ih]
    rfl

theorem wrap_append (cmd : Cmd) (rs rs' : List Redir) :
    wrap cmd (rs ++ rs') = wrap (wrap cmd rs) rs' := foldl_append

/-- The peek of the loop in `parseexec`. -/
theorem peek_end (h : At line s ts) : peek line [bar, rpar, amp, semi] s =
    .ok (starts [bar, rpar, amp, semi] ts, nextChar line s) :=
  peek_eq (by decide +kernel) h

theorem args_starts (h : Args us ws rs) (hvs : EndsAt [bar, rpar, amp, semi] vs) :
    starts [lt, gt] (us ++ vs) = false := by
  cases h with
  | nil => exact hvs.not_starts (by decide +kernel)
  | cons => rfl

theorem parseargs_complete (argc : Nat) (ws₀ : List Word) (rs₀ : List Redir) (h : Args us ws rs)
    (hvs : EndsAt [bar, rpar, amp, semi] vs) (hat : At line s (us ++ vs))
    (hargc : argc + ws.length < MAXARGS) (hfuel : (us ++ vs).length < fuel) :
    ∃ s', parseargs line fuel argc (wrap (.exec ws₀) rs₀) s =
      .ok (wrap (.exec (ws₀ ++ ws)) (rs₀ ++ rs), s') ∧ At line s' vs := by
  induction h generalizing s fuel argc ws₀ rs₀ with
  | nil =>
    obtain _ | fuel := fuel
    · omega
    unfold parseargs
    rw [peek_end hat, ok_bind, append_nil, append_nil]
    rcases hvs with rfl | hvs
    · obtain ⟨htok, hat'⟩ := gettoken_nil hat.next
      refine ⟨line.es, ?_, hat'⟩
      show (gettoken line (nextChar line s) >>= _) = _
      rw [htok]
      rfl
    · refine ⟨nextChar line s, ?_, hat.next⟩
      rw [nil_append, hvs]
      rfl
  | @cons w us' vs' ws rs rs' hredirs hrest ih =>
    obtain _ | fuel := fuel
    · omega
    rw [cons_append, append_assoc] at hat
    obtain ⟨q, e, s₁, htok, hat₁, hspans⟩ := gettoken_cons hat.next
    obtain rfl := hspans w rfl
    simp only [cons_append, length_cons, length_append] at hfuel hargc
    obtain ⟨s₂, hred, hat₂⟩ := parseredirs_complete (wrap (.exec (ws₀ ++ [⟨q, e⟩])) rs₀)
      hredirs (args_starts hrest hvs) hat₁ (show us'.length < fuel by omega)
    have hih : ∃ s', parseargs line fuel (argc + 1) (wrap (.exec (ws₀ ++ [⟨q, e⟩])) (rs₀ ++ rs)) s₂ =
        .ok (wrap (.exec (ws₀ ++ [⟨q, e⟩] ++ ws)) (rs₀ ++ rs ++ rs'), s') ∧ At line s' vs :=
      ih (argc + 1) _ _ hat₂ (by omega) (by rw [length_append]; omega)
    obtain ⟨s', hres, hat'⟩ := hih
    refine ⟨s', ?_, hat'⟩
    unfold parseargs
    rw [peek_end hat, ok_bind]
    show (gettoken line (nextChar line s) >>= _) = _
    rw [htok, ok_bind]
    simp only [code_of_word, ne_eq, not_true_eq_false, if_false]
    rw [if_neg (by decide), if_neg (by omega), addArg_wrap]
    show (parseredirs line fuel (wrap (.exec (ws₀ ++ [⟨q, e⟩])) rs₀) s₁ >>= _) = _
    rw [hred, ok_bind]
    dsimp only
    rw [← wrap_append, hres, append_assoc, append_assoc]
    rfl

theorem parseargs_sound (ws₀ : List Word) (rs₀ : List Redir) (hat : At line s ts)
    (hargc : ws₀.length < MAXARGS) (hfuel : ts.length < fuel)
    (hts : starts [lt, gt] ts = false) :
    Yields (parseargs line fuel ws₀.length (wrap (.exec ws₀) rs₀) s) fun x =>
      ∃ us vs ws rs, ts = us ++ vs ∧ Args us ws rs ∧ (ws₀ ++ ws).length < MAXARGS ∧
        x.1 = wrap (.exec (ws₀ ++ ws)) (rs₀ ++ rs) ∧ At line x.2 vs := by
  induction fuel generalizing s ts ws₀ rs₀ with
  | zero => omega
  | succ fuel ih =>
    have hnone : ∀ s', At line s' ts → ∃ us vs ws rs, ts = us ++ vs ∧ Args us ws rs ∧
        (ws₀ ++ ws).length < MAXARGS ∧
        wrap (.exec ws₀) rs₀ = wrap (.exec (ws₀ ++ ws)) (rs₀ ++ rs) ∧ At line s' vs := by
      intro s' hat'
      refine ⟨[], ts, [], [], rfl, .nil, ?_, ?_, hat'⟩
      · rwa [append_nil]
      · rw [append_nil, append_nil]
    unfold parseargs
    rw [peek_end hat, ok_bind]
    cases hstarts : starts [bar, rpar, amp, semi] ts with
    | true => exact .ok (hnone _ hat.next)
    | false =>
      simp only [Bool.false_eq_true, if_false]
      cases ts with
      | nil =>
        obtain ⟨htok, hat'⟩ := gettoken_nil hat.next
        rw [htok, ok_bind]
        exact .ok (hnone _ hat')
      | cons t ts =>
        obtain ⟨q, e, s₁, htok, hat₁, hspans⟩ := gettoken_cons hat.next
        rw [htok, ok_bind, if_neg (code_ne_zero t)]
        by_cases ht : t.code = letterA
        · obtain ⟨w, rfl⟩ := code_word ht
          obtain rfl := hspans w rfl
          rw [if_neg (not_not.mpr ht)]
          by_cases hmax : ws₀.length + 1 ≥ MAXARGS
          · rw [if_pos hmax]
            exact .panic
          · rw [if_neg hmax, addArg_wrap]
            simp only [length_cons] at hfuel
            refine (parseredirs_sound hat₁ (by omega)).bind ?_
            rintro x ⟨us, vs, rs, rfl, hredirs, hx, hat₂, hvs⟩
            rw [hx]
            show Yields (parseargs line fuel (ws₀.length + 1)
              (wrap (wrap (.exec (ws₀ ++ [⟨q, e⟩])) rs₀) rs) x.2) _
            have hlen : (ws₀ ++ [(⟨q, e⟩ : Word)]).length = ws₀.length + 1 := by simp
            rw [← wrap_append, ← hlen]
            simp only [length_append] at hfuel
            refine (ih _ _ hat₂ (by rw [hlen]; omega) (by omega) hvs).mono ?_
            rintro y ⟨us', vs', ws, rs', rfl, hargs, hfew, hy, hat'⟩
            refine ⟨.word ⟨q, e⟩ :: (us ++ us'), vs', ⟨q, e⟩ :: ws, rs ++ rs', ?_,
              .cons hredirs hargs, ?_, ?_, hat'⟩
            · simp
            · simpa using hfew
            · rw [hy]
              simp
        · rw [if_pos ht]
          exact .panic

end

end Xv6.Shell
