import Mathlib.Data.List.TakeWhile
import Xv6.Shell.Parse

/-!
# Commands and their strings

`parsecmd` returns exactly the commands that the grammar derives from the tokens of the line, and
then ends the words of the command with NULs in the buffer of the line. A word of the command is a
word of the line, which reaches as far as it can; so where a word ends there is a blank, an
operator or the end of the line, and never a character of another word.
-/

namespace Xv6.Shell

open Function List

section

variable {line : Line} {s fuel : Nat} {w : Word} {us : List Tok} {cmd : Cmd} {X : Nonterminal}
  {rs : List Redir} {ws : List Word}

/-! ## `parsecmd` -/

theorem lex_length_le (s : Nat) (l : List UInt8) : (lex s l).length ≤ l.length := by
  fun_induction lex s l with
  | case1 s => exact le_rfl
  | case2 s c l hb ih =>
    rw [length_cons]
    omega
  | case3 s c l hb hgg ih =>
    rw [length_tail] at ih
    have hpos : 0 < l.length := by
      cases l with
      | nil => cases hgg.2
      | cons => exact Nat.succ_pos _
    rw [length_cons, length_cons]
    omega
  | case4 s c l hb hgg t ht ih =>
    rw [length_cons, length_cons]
    omega
  | case5 s c l hb hgg ht k ih =>
    rw [length_drop] at ih
    rw [length_cons, length_cons]
    omega

/-- The tokens of a line. -/
def Line.toks (line : Line) : List Tok := lex 0 line.chars

theorem at_start (line : Line) : At line 0 line.toks := ⟨Nat.zero_le _, rfl⟩

/-- The end of the line is where no token is left. -/
theorem At.nil_iff (h : At line s us) : nextChar line s = line.es ↔ us = [] := by
  constructor
  · intro hes
    rw [← h.next.toks, hes, drop_es, lex_nil]
  · rintro rfl
    rcases h.cases with ⟨-, hes⟩ | ⟨c, l, hd, hb, hc, hlex⟩
    · exact hes
    · obtain ⟨t, e, -, -, hcons, -⟩ := finds hd hb hc
      rw [hlex] at hcons
      cases hcons

theorem toks_fuel (line : Line) : 4 * line.toks.length + need .line ≤ 4 * line.es + 4 := by
  have hlen : line.toks.length ≤ line.es := lex_length_le 0 line.chars
  simp only [need]
  omega

/-- What `parsecmd` returns. -/
theorem parsecmd_sound (hfuel : 4 * line.es + 4 ≤ fuel) :
    Yields (parsecmd fuel line) fun x =>
      Derives .line line.toks x.1 ∧ x.2 = nulterminate x.1 line.mem := by
  unfold parsecmd
  have hneed := toks_fuel line
  refine (parse_sound line .line fuel 0 line.toks (at_start line) (by omega)).bind ?_
  rintro x ⟨us, vs, hts, hder, hat⟩
  rw [peek_eq (by simp) hat, ok_bind]
  by_cases hes : nextChar line x.2 = line.es
  · rw [if_neg (not_not.mpr hes)]
    rw [hat.nil_iff.mp hes, append_nil] at hts
    rw [hts]
    exact .ok ⟨hder, rfl⟩
  · rw [if_pos hes]
    exact .panic

theorem parsecmd_complete (hfuel : 4 * line.es + 4 ≤ fuel) (h : Derives .line line.toks cmd) :
    parsecmd fuel line = .ok (cmd, nulterminate cmd line.mem) := by
  have hat := at_start line
  have hneed := toks_fuel line
  rw [← append_nil line.toks] at hat hneed
  obtain ⟨s', hres, hat'⟩ := parse_complete h (.inl rfl) hat (show _ ≤ fuel by omega)
  simp only [parse] at hres
  unfold parsecmd
  rw [hres, ok_bind, peek_eq (by simp) hat', ok_bind, if_neg (not_not.mpr (hat'.nil_iff.mpr rfl))]

/-- With enough fuel, `parsecmd` returns or panics, and it returns exactly the command that the
    tokens of the line derive. -/
theorem parsecmd_iff_derives (hfuel : 4 * line.es + 4 ≤ fuel) :
    ((∃ x, parsecmd fuel line = .ok x) ∨ ∃ msg, parsecmd fuel line = .error (.panic msg)) ∧
    ∀ cmd, (∃ m, parsecmd fuel line = .ok (cmd, m)) ↔ Derives .line line.toks cmd := by
  have hsound := parsecmd_sound hfuel
  refine ⟨?_, fun cmd => ⟨?_, fun h => ⟨_, parsecmd_complete hfuel h⟩⟩⟩
  · cases hres : parsecmd fuel line with
    | ok x => exact .inl ⟨x, rfl⟩
    | error e =>
      rw [hres] at hsound
      cases e with
      | panic msg => exact .inr ⟨msg, rfl⟩
      | fault => exact hsound.elim
      | fuel => exact hsound.elim
  · rintro ⟨m, hres⟩
    rw [hres] at hsound
    exact hsound.1

/-- `a|b&` -/
def pipeline : Line := ⟨[97, 124, 98, 38], by decide⟩

theorem parsecmd_runs : ∃ m, parsecmd 20 pipeline =
    .ok (.back (.pipe (.exec [⟨0, 1⟩]) (.exec [⟨2, 3⟩])), m) := by
  have hcmd : (parsecmd 20 pipeline).toOption.map Prod.fst =
      some (.back (.pipe (.exec [⟨0, 1⟩]) (.exec [⟨2, 3⟩]))) := by decide +kernel
  cases hres : parsecmd 20 pipeline with
  | error e =>
    rw [hres] at hcmd
    cases hcmd
  | ok x =>
    rw [hres] at hcmd
    exact ⟨x.2, by rw [← Option.some.inj hcmd]⟩

theorem parsecmd_pipeline :
    Derives .line pipeline.toks (.back (.pipe (.exec [⟨0, 1⟩]) (.exec [⟨2, 3⟩]))) :=
  ((parsecmd_iff_derives (by decide)).2 _).mp parsecmd_runs

/-! ## Words -/

/-- The words of a command. -/
def Cmd.words : Cmd → List Word
  | .exec argv => argv
  | .redir cmd file _ _ => cmd.words ++ [file]
  | .pipe left right => left.words ++ right.words
  | .list left right => left.words ++ right.words
  | .back cmd => cmd.words

theorem words_wrap (cmd : Cmd) (rs : List Redir) :
    (wrap cmd rs).words = cmd.words ++ rs.map Redir.file := by
  induction rs generalizing cmd with
  | nil => simp [wrap]
  | cons r rs ih =>
    show (wrap (.redir cmd r.file r.mode r.fd) rs).words = _
    rw [ih]
    simp [Cmd.words]

theorem words_back (k : Nat) (cmd : Cmd) : (Cmd.back^[k] cmd).words = cmd.words := by
  induction k generalizing cmd with
  | zero => rfl
  | succ k ih =>
    rw [iterate_succ_apply, ih]
    rfl

theorem Redirs.mem (h : Redirs us rs) (hw : w ∈ rs.map Redir.file) : .word w ∈ us := by
  induction h with
  | nil => cases hw
  | @cons t v r us rs hop hrest ih =>
    rw [map_cons, mem_cons] at hw
    rcases hw with rfl | hw
    · have hfile : r.file = v := by
        cases t with
        | lt => cases hop; rfl
        | gt => cases hop; rfl
        | gtgt => cases hop; rfl
        | _ => cases hop
      rw [hfile]
      simp
    · simp [ih hw]

theorem Args.mem (h : Args us ws rs) (hw : w ∈ ws ++ rs.map Redir.file) : .word w ∈ us := by
  induction h with
  | nil => cases hw
  | @cons v us vs ws rs rs' hredirs hrest ih =>
    simp only [map_append, cons_append, mem_cons, mem_append] at hw ih ⊢
    rcases hw with rfl | hw | hw | hw
    · exact .inl rfl
    · exact .inr (.inr (ih (.inl hw)))
    · exact .inr (.inl (hredirs.mem hw))
    · exact .inr (.inr (ih (.inr hw)))

/-- The words of a command are words of the line. -/
theorem Derives.mem (h : Derives X us cmd) (hw : w ∈ cmd.words) : .word w ∈ us := by
  induction h with
  | back k hpipe ih =>
    rw [words_back] at hw
    exact mem_append_left _ (ih hw)
  | list k hpipe hline ih ih' =>
    simp only [Cmd.words, words_back, mem_append] at hw
    rcases hw with hw | hw
    · exact mem_append_left _ (ih hw)
    · simp [ih' hw]
  | single hexec ih => exact ih hw
  | pipe hexec hpipe ih ih' =>
    simp only [Cmd.words, mem_append] at hw
    rcases hw with hw | hw
    · exact mem_append_left _ (ih hw)
    · simp [ih' hw]
  | block hline hredirs ih =>
    rw [words_wrap, mem_append] at hw
    rcases hw with hw | hw
    · simp [ih hw]
    · simp [hredirs.mem hw]
  | simple hredirs hargs hfew =>
    rw [words_wrap, map_append] at hw
    simp only [Cmd.words, mem_append] at hw ⊢
    rcases hw with hw | hw | hw
    · exact .inr (hargs.mem (mem_append_left _ hw))
    · exact .inl (hredirs.mem hw)
    · exact .inr (hargs.mem (mem_append_right _ hw))

/-! ## Where words end -/

/-- A word reaches from `q` to `eq`, as far as it can. -/
structure Spans (line : Line) (w : Word) : Prop where
  lt : w.q < w.eq
  le : w.eq ≤ line.es
  inside : ∀ x, w.q ≤ x → x < w.eq → isWordChar (line.mem x) = true
  ends : w.eq = line.es ∨ isWordChar (line.mem w.eq) = false

theorem mem_of_drop {c : UInt8} {l : List UInt8} {x : Nat} (h : line.chars.drop s = l)
    (hx : l[x]? = some c) : line.mem (s + x) = c := by
  rw [← h, getElem?_drop] at hx
  rw [Line.mem, getD_eq_getElem?_getD, hx]
  rfl

/-- A longest word. -/
theorem spans_longest {l : List UInt8} {k : Nat} (hd : line.chars.drop s = l)
    (hk : k = (l.takeWhile isWordChar).length) (hpos : 0 < k) : Spans line ⟨s, s + k⟩ := by
  have hsplit := takeWhile_append_dropWhile (p := isWordChar) (l := l)
  have hlen : k ≤ l.length := by
    rw [hk]
    exact ( takeWhile_prefix _).length_le
  have hes : l.length = line.es - s := by
    rw [← hd, length_drop]
    rfl
  refine ⟨Nat.lt_add_of_pos_right hpos, by dsimp only; omega, ?_, ?_⟩
  · intro x hq hx
    dsimp only at hq hx
    obtain ⟨i, rfl⟩ := Nat.exists_eq_add_of_le hq
    have hi : i < (l.takeWhile isWordChar).length := by omega
    have hget : l[i]? = some (l.takeWhile isWordChar)[i] := by
      conv_lhs => rw [← hsplit]
      rw [getElem?_append_left hi, getElem?_eq_getElem hi]
    rw [mem_of_drop hd hget]
    exact mem_takeWhile_imp (getElem_mem hi)
  · cases hrest : l.dropWhile isWordChar with
    | nil =>
      rw [hrest, append_nil] at hsplit
      refine .inl ?_
      dsimp only
      rw [hk, hsplit]
      omega
    | cons c rest =>
      refine .inr ?_
      have hget : l[k]? = some c := by
        rw [← hsplit, hrest, getElem?_append_right (by omega), hk, Nat.sub_self]
        rfl
      have hne : l.dropWhile isWordChar ≠ [] := by
        rw [hrest]
        simp
      have hhead := head_dropWhile_not isWordChar hne
      dsimp only
      rw [mem_of_drop hd hget]
      simpa [hrest] using hhead

theorem lex_spans (s : Nat) (l : List UInt8) (hd : line.chars.drop s = l) (hw : .word w ∈ lex s l) :
    Spans line w := by
  fun_induction lex s l with
  | case1 s => cases hw
  | case2 s c l hb ih => exact ih (drop_succ hd).2 hw
  | case3 s c l hb hgg ih =>
    rw [mem_cons] at hw
    rcases hw with hw | hw
    · cases hw
    · cases l with
      | nil => cases hgg.2
      | cons d l => exact ih (drop_succ (drop_succ hd).2).2 hw
  | case4 s c l hb hgg t ht ih =>
    rw [mem_cons] at hw
    rcases hw with rfl | hw
    · obtain ⟨-, hsym, -⟩ := ofChar_some ht
      cases hsym
    · exact ih (drop_succ hd).2 hw
  | case5 s c l hb hgg ht k ih =>
    rw [mem_cons] at hw
    rcases hw with hw | hw
    · cases hw
      have hwc : isWordChar c = true := by
        simp only [isWordChar, Bool.and_eq_true, Bool.not_eq_true', contains_eq_mem,
          decide_eq_false_iff_not]
        exact ⟨by simpa [isBlank] using hb, ofChar_none ht⟩
      rw [add_assoc]
      refine spans_longest hd ?_ (by omega)
      rw [takeWhile_cons_of_pos hwc, length_cons]
      omega
    · refine ih ?_ hw
      rw [← drop_drop, (drop_succ hd).2]

/-! ## The strings -/

/-- The C string at `q`. -/
def IsString (m : Nat → UInt8) (q : Nat) (l : List UInt8) : Prop :=
  (∀ i, (h : i < l.length) → m (q + i) = l[i] ∧ l[i] ≠ 0) ∧ m (q + l.length) = 0

theorem foldl_ends (argv : List Word) (m : Nat → UInt8) (x : Nat) :
    argv.foldl (fun m w => update m w.eq 0) m x =
      if x ∈ argv.map Word.eq then 0 else m x := by
  induction argv generalizing m with
  | nil => rfl
  | cons w argv ih =>
    rw [foldl_cons, ih, map_cons]
    by_cases hx : x ∈ argv.map Word.eq
    · rw [if_pos hx, if_pos (mem_cons_of_mem _ hx)]
    · rw [if_neg hx]
      by_cases hw : x = w.eq
      · rw [hw, update_self, if_pos mem_cons_self]
      · rw [update_of_ne hw, if_neg (by simp only [mem_cons, not_or]; exact ⟨hw, hx⟩)]

/-- NULs are written where the words of the command end, and nothing else is changed. -/
theorem nulterminate_eq (cmd : Cmd) (m : Nat → UInt8) (x : Nat) :
    nulterminate cmd m x = if x ∈ cmd.words.map Word.eq then 0 else m x := by
  induction cmd generalizing m with
  | exec argv => exact foldl_ends argv m x
  | redir cmd file mode fd ih =>
    rw [nulterminate, Cmd.words, map_append]
    by_cases hx : x = file.eq
    · rw [hx, update_self, if_pos (by simp)]
    · rw [update_of_ne hx, ih]
      simp [hx]
  | pipe left right ihl ihr =>
    rw [nulterminate, ihr, ihl, Cmd.words, map_append]
    by_cases hx : x ∈ right.words.map Word.eq
    · rw [if_pos hx, if_pos (mem_append_right _ hx)]
    · simp only [mem_append, hx, or_false, if_false]
  | list left right ihl ihr =>
    rw [nulterminate, ihr, ihl, Cmd.words, map_append]
    by_cases hx : x ∈ right.words.map Word.eq
    · rw [if_pos hx, if_pos (mem_append_right _ hx)]
    · simp only [mem_append, hx, or_false, if_false]
  | back cmd ih => exact ih m

/-- The characters of a word in the line. -/
def Line.slice (line : Line) (w : Word) : List UInt8 := (line.chars.drop w.q).take (w.eq - w.q)

theorem Spans.slice_length (h : Spans line w) : (line.slice w).length = w.eq - w.q := by
  have hle := h.le
  rw [Line.slice, length_take, length_drop]
  unfold Line.es at hle
  omega

theorem Spans.slice_get (h : Spans line w) {i : Nat} (hi : i < (line.slice w).length) :
    line.mem (w.q + i) = (line.slice w)[i] ∧ (line.slice w)[i] ≠ 0 := by
  have hget : (line.chars.drop w.q)[i]? = some (line.slice w)[i] := by
    have hlen := h.slice_length
    rw [← getElem?_take_of_lt (show i < w.eq - w.q by omega)]
    exact getElem?_eq_getElem hi
  refine ⟨mem_of_drop rfl hget, fun h0 => line.noNul ?_⟩
  rw [← h0]
  exact mem_of_mem_drop (mem_of_getElem? hget)

/-- Every word of a command that `parsecmd` returns is in the end a string: the characters of a
    word of the line. -/
theorem words_are_strings {m : Nat → UInt8} (hfuel : 4 * line.es + 4 ≤ fuel)
    (h : parsecmd fuel line = .ok (cmd, m)) :
    ∀ w ∈ cmd.words, .word w ∈ line.toks ∧ IsString m w.q (line.slice w) := by
  have hsound := parsecmd_sound hfuel
  rw [h] at hsound
  obtain ⟨hder, rfl⟩ : Derives .line line.toks cmd ∧ m = nulterminate cmd line.mem := hsound
  have hspans : ∀ v ∈ cmd.words, Spans line v := fun v hv => lex_spans 0 _ rfl (hder.mem hv)
  intro w hw
  have hsp := hspans w hw
  have hlen := hsp.slice_length
  have hlt := hsp.lt
  refine ⟨hder.mem hw, fun i hi => ?_, ?_⟩
  · obtain ⟨hget, hne⟩ := hsp.slice_get hi
    refine ⟨?_, hne⟩
    -- no word ends inside of this one
    rw [nulterminate_eq, if_neg, hget]
    intro hin
    obtain ⟨v, hv, hx⟩ := mem_map.mp hin
    have hinside := hsp.inside (w.q + i) (Nat.le_add_right ..) (by omega)
    have hle := hsp.le
    rcases (hspans v hv).ends with hes | hend
    · omega
    · rw [hx, hinside] at hend
      cases hend
  · rw [nulterminate_eq, hlen, show w.q + (w.eq - w.q) = w.eq by omega,
      if_pos (mem_map_of_mem hw)]

theorem words_are_strings_pipeline : ∃ cmd m, parsecmd 20 pipeline = .ok (cmd, m) ∧
    IsString m 0 [97] ∧ IsString m 2 [98] := by
  obtain ⟨m, hm⟩ := parsecmd_runs
  have hstr := words_are_strings (by decide) hm
  exact ⟨_, m, hm, (hstr ⟨0, 1⟩ (by simp [Cmd.words])).2, (hstr ⟨2, 3⟩ (by simp [Cmd.words])).2⟩

end

end Xv6.Shell
