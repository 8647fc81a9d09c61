import DemoClass.Calc.Correct
import DemoClass.Calc.Halting

/-!
# The calls of `do_stack`

`do_stack` is called in three loops, those of `opr_handle`, `bracket_handle` and
`calc_main`.  `Calls` says which loop comes to a call in a run of `calc_main` on a fresh
`calc_info`, and with which stacks.  All that can go wrong in a run goes wrong at such
a call, at a character or at a bracket (`calcMain_fault` and `errorExit_iff`).
-/

namespace DemoClass

namespace Calc

variable (ovf : ℤ → Except Fault CInt)

/-- The characters of an expression. -/
def Known (c : Char) : Prop := IsDigit c ∨ IsOpr c ∨ IsBlank c ∨ c = '(' ∨ c = ')'

/-- The loops that call `do_stack`, the one of `opr_handle` for an operator. -/
inductive Caller
  | opr (c : Char)
  | bracket
  | main

namespace Caller

/-- A call on `s` that begins with `info₀` comes to the loop with `info`. -/
def StartsFrom (info₀ : CalcInfo) (s : List Char) : Caller → CalcInfo → Prop
  | .opr c, info => ∃ t u i, s = t ++ c :: u ∧ IsOpr c ∧
      (scan ovf t info₀).Ends (.ok (none, i)) ∧
      (i.flag = .NUM ∨ c ≠ '+' ∧ c ≠ '-') ∧ info = { i with flag := .OPR }
  | .bracket, info => ∃ t u, s = t ++ ')' :: u ∧ (scan ovf t info₀).Ends (.ok (none, info))
  | .main, info => (scan ovf s info₀).Ends (.ok (none, info))

/-- The run of `calc_main` on `s` comes to the loop with `info`. -/
def Starts (s : List Char) (caller : Caller) (info : CalcInfo) : Prop :=
  caller.StartsFrom ovf calcInit s info

/-- Some rounds of the loop lead from `info` to `info'`. -/
def Rounds : Caller → CalcInfo → CalcInfo → Prop
  | .opr c, info, info' => ∃ n, Comp.Iterates (oprHandleBody ovf c) n info info'
  | .bracket, info, info' => ∃ n, Comp.Iterates (bracketHandleBody ovf) n info info'
  | .main, info, info' => ∃ n, Comp.Iterates (drainBody ovf) n info info'

/-- The loop calls `do_stack` when it finds `top_c` on the operator stack. -/
def Applies : Caller → Char → Prop
  | .opr c, top_c => ¬ opr2level top_c < opr2level c
  | .bracket, top_c => top_c ≠ '('
  | .main, top_c => top_c ≠ '('

/-- The round leaves the loop with an error code. -/
def Fails : Caller → CalcInfo → Prop
  | .opr c, info => ∃ info', (oprHandleBody ovf c info).Ends (.ok (.inr (-1, info')))
  | .bracket, info => ∃ info', (bracketHandleBody ovf info).Ends (.ok (.inr (-1, info')))
  | .main, info => ∃ ret info', (drainBody ovf info).Ends (.ok (.inr (some ret, info')))

end Caller

/-- In the run of `calc_main` on `s` the loop comes to a call of `do_stack` with
`info`. -/
def Calls (s : List Char) (caller : Caller) (info : CalcInfo) : Prop :=
  (∃ start, caller.Starts ovf s start ∧ caller.Rounds ovf start info) ∧
    ∃ top_c ∈ info.opr.head?, caller.Applies top_c

/-- `calc_main` on `s` returns through one of its error exits. -/
def ErrorExit (s : List Char) : Prop :=
  ∃ ret info', (scan ovf s calcInit).Ends (.ok (some ret, info')) ∨
    ∃ info, (scan ovf s calcInit).Ends (.ok (none, info)) ∧
      (Comp.loop (drainBody ovf) info).Ends (.ok (some ret, info'))

/-- `do_stack` finds a `/` and a zero to divide by. -/
def ZeroDivision (info : CalcInfo) : Prop :=
  info.opr.head? = some '/' ∧ ∃ b ∈ info.num.head?, b.1 = 0

/-- `do_stack` finds fewer than two numbers, or a division by zero on top. -/
def Short (info : CalcInfo) : Prop := info.num.length < 2 ∨ ZeroDivision info

variable {ovf} {s : List Char} {caller : Caller} {start info info' : CalcInfo}

/-! ### The characters -/

lemma IsOpr.known {c : Char} (h : IsOpr c) : Known c := Or.inr (Or.inl h)

/-- An unknown character ends the run. -/
lemma charHandle_unknown {c : Char} (hc : ¬ Known c) (info : CalcInfo) :
    charHandle ovf c info = pure (some (-1), info) := by
  simp only [Known, IsOpr, IsBlank, not_or] at hc
  obtain ⟨hdigit, ⟨hmul, hdiv, hmod, hplus, hminus⟩, ⟨hspace, htab, hline⟩, hopen, hclose⟩ := hc
  simp [charHandle, *]

/-- What the loop of `calc_main` does with a character. -/
lemma charHandle_cases {c : Char} {p : Option ℤ × CalcInfo}
    (h : (charHandle ovf c info).Ends (.ok p)) :
    (IsDigit c ∧ p.1 = none ∧ (numHandle ovf c info).Ends (.ok p.2)) ∨
      (IsOpr c ∧ ∃ iret, p.1 = (if iret < 0 then some iret else none) ∧
        (oprHandle ovf c info).Ends (.ok (iret, p.2))) ∨
      (IsBlank c ∧ p = (none, info)) ∨
      (c = '(' ∧ p = (none, { info with opr := '(' :: info.opr })) ∨
      (c = ')' ∧ ∃ iret, p.1 = (if iret < 0 then some iret else none) ∧
        (Comp.loop (bracketHandleBody ovf) info).Ends (.ok (iret, p.2))) ∨
      ¬ Known c ∧ p = (some (-1), info) := by
  by_cases hknown : Known c
  · rcases hknown with hdigit | hopr | hblank | rfl | rfl
    · rw [charHandle, if_pos hdigit] at h
      obtain ⟨i, hnum, hret⟩ := Comp.ends_bind_ok_iff.1 h
      obtain rfl := Except.ok.inj (Comp.ends_pure.1 hret)
      exact Or.inl ⟨hdigit, rfl, hnum⟩
    · rw [charHandle_opr hopr] at h
      obtain ⟨⟨iret, i⟩, ho, hret⟩ := Comp.ends_bind_ok_iff.1 h
      obtain rfl := Except.ok.inj (Comp.ends_pure.1 hret)
      exact Or.inr (Or.inl ⟨hopr, iret, rfl, ho⟩)
    · rw [charHandle_blank hblank] at h
      exact Or.inr (Or.inr (Or.inl ⟨hblank, Except.ok.inj (Comp.ends_pure.1 h)⟩))
    · refine Or.inr (Or.inr (Or.inr (Or.inl ⟨rfl, ?_⟩)))
      simpa [charHandle, bracketHandle, IsDigit] using h
    · rw [charHandle_close] at h
      obtain ⟨⟨iret, i⟩, hloop, hret⟩ := Comp.ends_bind_ok_iff.1 h
      obtain rfl := Except.ok.inj (Comp.ends_pure.1 hret)
      exact Or.inr (Or.inr (Or.inr (Or.inr (Or.inl ⟨rfl, iret, rfl, hloop⟩))))
  · rw [charHandle_unknown hknown] at h
    exact Or.inr (Or.inr (Or.inr (Or.inr (Or.inr
      ⟨hknown, Except.ok.inj (Comp.ends_pure.1 h)⟩))))

/-- What it does with one that does not end the run. -/
lemma charHandle_none {c : Char} (h : (charHandle ovf c info).Ends (.ok (none, info'))) :
    (IsDigit c ∧ (numHandle ovf c info).Ends (.ok info')) ∨
      (IsOpr c ∧ ∃ iret, ¬ iret < 0 ∧ (oprHandle ovf c info).Ends (.ok (iret, info'))) ∨
      (IsBlank c ∧ info' = info) ∨ (c = '(' ∧ info' = { info with opr := '(' :: info.opr }) ∨
      c = ')' ∧ ∃ iret, ¬ iret < 0 ∧
        (Comp.loop (bracketHandleBody ovf) info).Ends (.ok (iret, info')) := by
  rcases charHandle_cases h with ⟨hdigit, -, hnum⟩ | ⟨hopr, iret, hret, ho⟩ | ⟨hblank, hp⟩ |
      ⟨rfl, hp⟩ | ⟨rfl, iret, hret, hloop⟩ | ⟨-, hp⟩
  · exact Or.inl ⟨hdigit, hnum⟩
  · exact Or.inr (Or.inl ⟨hopr, iret, by simpa using hret, ho⟩)
  · exact Or.inr (Or.inr (Or.inl ⟨hblank, (Prod.mk.inj hp).2⟩))
  · exact Or.inr (Or.inr (Or.inr (Or.inl ⟨rfl, (Prod.mk.inj hp).2⟩)))
  · exact Or.inr (Or.inr (Or.inr (Or.inr ⟨rfl, iret, by simpa using hret, hloop⟩)))
  · simp at hp

lemma scan_append_none {t u : List Char} :
    (scan ovf (t ++ u) info).Ends (.ok (none, info')) ↔
      ∃ i, (scan ovf t info).Ends (.ok (none, i)) ∧ (scan ovf u i).Ends (.ok (none, info')) := by
  refine ⟨fun h => ?_, fun ⟨i, ht, hu⟩ => scan_append_ends ht hu⟩
  induction t generalizing info with
  | nil => exact ⟨info, Comp.ends_pure.2 rfl, h⟩
  | cons c t ih =>
      obtain ⟨info₁, hchar, hrest⟩ := scan_cons_none.1 h
      obtain ⟨i, ht, hu⟩ := ih hrest
      exact ⟨i, scan_cons_ends hchar ht, hu⟩

/-- The loop over the characters stops early at one of them. -/
lemma scan_stops_iff {r : Except Fault (Option ℤ × CalcInfo)}
    (hr : ∀ info', r ≠ .ok (none, info')) :
    (scan ovf s info).Ends r ↔ ∃ t c u i, s = t ++ c :: u ∧
      (scan ovf t info).Ends (.ok (none, i)) ∧ (charHandle ovf c i).Ends r := by
  constructor
  · intro h
    induction s generalizing info with
    | nil => exact absurd (Comp.ends_pure.1 h) (hr info)
    | cons c s ih =>
        rcases Comp.ends_bind_iff.1 h with ⟨⟨ret, info₁⟩, hchar, hrest⟩ | ⟨e, he, rfl⟩
        · match ret, hchar, hrest with
          | none, hchar, hrest =>
              obtain ⟨t, d, u, i, rfl, ht, hd⟩ := ih hrest
              exact ⟨c :: t, d, u, i, rfl, scan_cons_ends hchar ht, hd⟩
          | some ret, hchar, hrest =>
              obtain rfl := Comp.ends_pure.1 hrest
              exact ⟨[], c, s, info, rfl, Comp.ends_pure.2 rfl, hchar⟩
        · exact ⟨[], c, s, info, rfl, Comp.ends_pure.2 rfl, he⟩
  · rintro ⟨t, c, u, i, rfl, ht, hc⟩
    refine scan_append_ends ht ?_
    match r, hr, hc with
    | .error e, _, hc => exact hc.bind_fault
    | .ok (some ret, info₁), _, hc => exact hc.bind (Comp.ends_pure.2 rfl)
    | .ok (none, info₁), hr, _ => exact absurd rfl (hr info₁)

/-! ### The rounds of the loops -/

lemma oprHandleBody_ends {c : Char} {r : CalcInfo ⊕ (ℤ × CalcInfo)}
    (h : (oprHandleBody ovf c info).Ends (.ok r)) :
    r = .inr (0, { info with opr := c :: info.opr }) ∨
      (∃ top_c ∈ info.opr.head?, (Caller.opr c).Applies top_c) ∧
        ∃ ret info', DoStack ovf info ret info' ∧
          r = if ret < 0 then .inr (-1, info') else .inl info' := by
  match info, h with
  | ⟨num, [], flag⟩, h => exact Or.inl (by simpa [oprHandleBody] using h)
  | ⟨num, top_c :: opr, flag⟩, h =>
      by_cases hlevel : opr2level top_c < opr2level c
      · exact Or.inl (by simpa [oprHandleBody, hlevel] using h)
      · rw [oprHandleBody_of_le hlevel] at h
        obtain ⟨⟨ret, info'⟩, hdo, hret⟩ := Comp.ends_bind_ok_iff.1 h
        refine Or.inr ⟨⟨top_c, rfl, hlevel⟩, ret, info', doStack_ends_iff.1 hdo, ?_⟩
        dsimp only at hret
        split_ifs at hret ⊢ <;> simpa using hret

lemma bracketHandleBody_ends {r : CalcInfo ⊕ (ℤ × CalcInfo)}
    (h : (bracketHandleBody ovf info).Ends (.ok r)) :
    info.opr = [] ∧ r = .inr (-1, info) ∨
      (∃ opr, info.opr = '(' :: opr ∧ r = .inr (0, { info with opr := opr })) ∨
      (∃ top_c ∈ info.opr.head?, Caller.bracket.Applies top_c) ∧
        ∃ ret info', DoStack ovf info ret info' ∧ r = .inl info' := by
  match info, h with
  | ⟨num, [], flag⟩, h => exact Or.inl ⟨rfl, by simpa [bracketHandleBody] using h⟩
  | ⟨num, top_c :: opr, flag⟩, h =>
      by_cases hopen : top_c = '('
      · subst hopen
        exact Or.inr (Or.inl ⟨opr, rfl, by simpa [bracketHandleBody] using h⟩)
      · rw [bracketHandleBody_of_ne hopen] at h
        obtain ⟨⟨ret, info'⟩, hdo, hret⟩ := Comp.ends_bind_ok_iff.1 h
        refine Or.inr (Or.inr ⟨⟨top_c, rfl, hopen⟩, ret, info', doStack_ends_iff.1 hdo, ?_⟩)
        simpa using hret

lemma drainBody_ends {r : CalcInfo ⊕ (Option ℤ × CalcInfo)}
    (h : (drainBody ovf info).Ends (.ok r)) :
    info.opr = [] ∧ r = .inr (none, info) ∨
      info.opr.head? = some '(' ∧ r = .inr (some (-3), info) ∨
      (∃ top_c ∈ info.opr.head?, Caller.main.Applies top_c) ∧
        ∃ ret info', DoStack ovf info ret info' ∧
          r = if ret < 0 then .inr (some (-2), info') else .inl info' := by
  match info, h with
  | ⟨num, [], flag⟩, h => exact Or.inl ⟨rfl, by simpa [drainBody] using h⟩
  | ⟨num, top_c :: opr, flag⟩, h =>
      by_cases hopen : top_c = '('
      · subst hopen
        exact Or.inr (Or.inl ⟨rfl, by simpa [drainBody] using h⟩)
      · rw [drainBody_of_ne hopen] at h
        obtain ⟨⟨ret, info'⟩, hdo, hret⟩ := Comp.ends_bind_ok_iff.1 h
        refine Or.inr (Or.inr ⟨⟨top_c, rfl, hopen⟩, ret, info', doStack_ends_iff.1 hdo, ?_⟩)
        dsimp only at hret
        split_ifs at hret ⊢ <;> simpa using hret

/-- A round that does not leave the loop is a call of `do_stack`. -/
lemma oprHandleBody_round {c : Char} (h : (oprHandleBody ovf c info).Ends (.ok (.inl info'))) :
    (∃ top_c ∈ info.opr.head?, (Caller.opr c).Applies top_c) ∧
      ∃ ret, DoStack ovf info ret info' := by
  obtain hpush | ⟨happ, ret, i, hdo, hret⟩ := oprHandleBody_ends h
  · simp at hpush
  · split_ifs at hret
    obtain rfl := Sum.inl.inj hret
    exact ⟨happ, ret, hdo⟩

lemma bracketHandleBody_round (h : (bracketHandleBody ovf info).Ends (.ok (.inl info'))) :
    (∃ top_c ∈ info.opr.head?, Caller.bracket.Applies top_c) ∧
      ∃ ret, DoStack ovf info ret info' := by
  obtain ⟨-, hnil⟩ | ⟨opr, -, hopen⟩ | ⟨happ, ret, i, hdo, hret⟩ := bracketHandleBody_ends h
  · simp at hnil
  · simp at hopen
  · obtain rfl := Sum.inl.inj hret
    exact ⟨happ, ret, hdo⟩

lemma drainBody_round (h : (drainBody ovf info).Ends (.ok (.inl info'))) :
    (∃ top_c ∈ info.opr.head?, Caller.main.Applies top_c) ∧
      ∃ ret, DoStack ovf info ret info' := by
  obtain ⟨-, hnil⟩ | ⟨-, hopen⟩ | ⟨happ, ret, i, hdo, hret⟩ := drainBody_ends h
  · simp at hnil
  · simp at hopen
  · split_ifs at hret
    obtain rfl := Sum.inl.inj hret
    exact ⟨happ, ret, hdo⟩

namespace Caller

lemma Rounds.refl (caller : Caller) (info : CalcInfo) : caller.Rounds ovf info info := by
  cases caller <;> exact ⟨0, .refl _⟩

/-- The first round, if there is one, is a call of `do_stack`. -/
lemma Rounds.cases (h : caller.Rounds ovf start info) :
    info = start ∨ (∃ top_c ∈ start.opr.head?, caller.Applies top_c) ∧
      ∃ ret info', DoStack ovf start ret info' ∧ caller.Rounds ovf info' info := by
  cases caller with
  | opr c =>
      obtain ⟨n, hn⟩ := h
      cases hn with
      | refl => exact Or.inl rfl
      | step hbody hn =>
          obtain ⟨happ, ret, hdo⟩ := oprHandleBody_round hbody
          exact Or.inr ⟨happ, ret, _, hdo, _, hn⟩
  | bracket =>
      obtain ⟨n, hn⟩ := h
      cases hn with
      | refl => exact Or.inl rfl
      | step hbody hn =>
          obtain ⟨happ, ret, hdo⟩ := bracketHandleBody_round hbody
          exact Or.inr ⟨happ, ret, _, hdo, _, hn⟩
  | main =>
      obtain ⟨n, hn⟩ := h
      cases hn with
      | refl => exact Or.inl rfl
      | step hbody hn =>
          obtain ⟨happ, ret, hdo⟩ := drainBody_round hbody
          exact Or.inr ⟨happ, ret, _, hdo, _, hn⟩

/-- What every call of `do_stack` that the loop comes to preserves. -/
lemma Rounds.induction {I : CalcInfo → Prop}
    (hstep : ∀ i i' ret, caller.Rounds ovf start i →
      (∃ top_c ∈ i.opr.head?, caller.Applies top_c) → DoStack ovf i ret i' → I i → I i')
    (h : caller.Rounds ovf start info) (hstart : I start) : I info := by
  -- the rounds up to a state are part of what is preserved
  suffices hall : caller.Rounds ovf start info ∧ I info from hall.2
  cases caller with
  | opr c =>
      obtain ⟨n, hn⟩ := h
      refine hn.invariant (I := fun i => (Caller.opr c).Rounds ovf start i ∧ I i) ?_
        ⟨.refl _ _, hstart⟩
      rintro i i' ⟨⟨k, hk⟩, hi⟩ hbody
      obtain ⟨happ, ret, hdo⟩ := oprHandleBody_round hbody
      exact ⟨⟨k + 1, hk.snoc hbody⟩, hstep i i' ret ⟨k, hk⟩ happ hdo hi⟩
  | bracket =>
      obtain ⟨n, hn⟩ := h
      refine hn.invariant (I := fun i => Caller.bracket.Rounds ovf start i ∧ I i) ?_
        ⟨.refl _ _, hstart⟩
      rintro i i' ⟨⟨k, hk⟩, hi⟩ hbody
      obtain ⟨happ, ret, hdo⟩ := bracketHandleBody_round hbody
      exact ⟨⟨k + 1, hk.snoc hbody⟩, hstep i i' ret ⟨k, hk⟩ happ hdo hi⟩
  | main =>
      obtain ⟨n, hn⟩ := h
      refine hn.invariant (I := fun i => Caller.main.Rounds ovf start i ∧ I i) ?_
        ⟨.refl _ _, hstart⟩
      rintro i i' ⟨⟨k, hk⟩, hi⟩ hbody
      obtain ⟨happ, ret, hdo⟩ := drainBody_round hbody
      exact ⟨⟨k + 1, hk.snoc hbody⟩, hstep i i' ret ⟨k, hk⟩ happ hdo hi⟩

/-- What every call of `do_stack` in a loop preserves. -/
lemma Rounds.invariant {I : CalcInfo → Prop}
    (hstep : ∀ i i' ret, (∃ top_c ∈ i.opr.head?, caller.Applies top_c) → DoStack ovf i ret i' →
      I i → I i')
    (h : caller.Rounds ovf start info) (hstart : I start) : I info :=
  h.induction (fun i i' ret _ => hstep i i' ret) hstart

end Caller

/-- The loop of `opr_handle` ends with a push or at a call that fails. -/
lemma oprLoop_exit {c : Char} {p : ℤ × CalcInfo}
    (h : (Comp.loop (oprHandleBody ovf c) info).Ends (.ok p)) :
    ∃ i, (Caller.opr c).Rounds ovf info i ∧ (p = (0, { i with opr := c :: i.opr }) ∨
      (∃ top_c ∈ i.opr.head?, (Caller.opr c).Applies top_c) ∧ p.1 = -1 ∧
        (Caller.opr c).Fails ovf i ∧ ∃ ret, DoStack ovf i ret p.2) := by
  obtain ⟨n, i, hn, hbody⟩ := Comp.loop_ends_ok_iff.1 h
  refine ⟨i, ⟨n, hn⟩, ?_⟩
  obtain hpush | ⟨happ, ret, i', hdo, hret⟩ := oprHandleBody_ends hbody
  · exact Or.inl (Sum.inr.inj hpush)
  · split_ifs at hret
    obtain rfl := Sum.inr.inj hret
    exact Or.inr ⟨happ, rfl, ⟨i', hbody⟩, ret, hdo⟩

/-- The loop of `bracket_handle` ends at a bracket or when no operator is left. -/
lemma bracketLoop_exit {p : ℤ × CalcInfo}
    (h : (Comp.loop (bracketHandleBody ovf) info).Ends (.ok p)) :
    ∃ i, Caller.bracket.Rounds ovf info i ∧ (i.opr = [] ∧ p = (-1, i) ∨
      ∃ opr, i.opr = '(' :: opr ∧ p = (0, { i with opr := opr })) := by
  obtain ⟨n, i, hn, hbody⟩ := Comp.loop_ends_ok_iff.1 h
  refine ⟨i, ⟨n, hn⟩, ?_⟩
  obtain ⟨hnil, hret⟩ | ⟨opr, hopen, hret⟩ | ⟨-, ret, i', -, hret⟩ := bracketHandleBody_ends hbody
  · exact Or.inl ⟨hnil, Sum.inr.inj hret⟩
  · exact Or.inr ⟨opr, hopen, Sum.inr.inj hret⟩
  · simp at hret

/-- The second loop of `calc_main` ends when no operator is left, at a bracket or at a call
that fails. -/
lemma drainLoop_exit {p : Option ℤ × CalcInfo}
    (h : (Comp.loop (drainBody ovf) info).Ends (.ok p)) :
    ∃ i, Caller.main.Rounds ovf info i ∧ (i.opr = [] ∧ p = (none, i) ∨
      i.opr.head? = some '(' ∧ p = (some (-3), i) ∨
      (∃ top_c ∈ i.opr.head?, Caller.main.Applies top_c) ∧ p.1 = some (-2) ∧
        Caller.main.Fails ovf i ∧ ∃ ret, DoStack ovf i ret p.2) := by
  obtain ⟨n, i, hn, hbody⟩ := Comp.loop_ends_ok_iff.1 h
  refine ⟨i, ⟨n, hn⟩, ?_⟩
  obtain ⟨hnil, hret⟩ | ⟨hopen, hret⟩ | ⟨happ, ret, i', hdo, hret⟩ := drainBody_ends hbody
  · exact Or.inl ⟨hnil, Sum.inr.inj hret⟩
  · exact Or.inr (Or.inl ⟨hopen, Sum.inr.inj hret⟩)
  · split_ifs at hret
    obtain rfl := Sum.inr.inj hret
    exact Or.inr (Or.inr ⟨happ, rfl, ⟨-2, i', hbody⟩, ret, hdo⟩)

variable (ovf) in
lemma doStack_neg_iff (hne : info.opr ≠ []) :
    (∃ ret info', DoStack ovf info ret info' ∧ ret < 0) ↔ Short info := by
  constructor
  · rintro ⟨ret, info', hdo, hneg⟩
    cases hdo with
    | noNumber => exact Or.inl (by simp)
    | oneNumber => exact Or.inl (by simp)
    | noOpr => exact absurd rfl hne
    | zero happly =>
        obtain ⟨rfl, hzero⟩ := apply_none_iff.1 happly
        exact Or.inr ⟨rfl, _, rfl, hzero⟩
    | value _ => exact absurd hneg (lt_irrefl 0)
  · intro h
    match info, hne, h with
    | ⟨[], opr, flag⟩, _, _ => exact ⟨-1, _, .noNumber, by decide⟩
    | ⟨[b], opr, flag⟩, _, _ => exact ⟨-1, _, .oneNumber, by decide⟩
    | ⟨b :: a :: num, c :: opr, flag⟩, _, h =>
        obtain ⟨hc, b', hb', hzero⟩ := h.resolve_left (by simp)
        obtain rfl : c = '/' := by simpa using hc
        obtain rfl : b = b' := by simpa using hb'
        exact ⟨-3, _, .zero (apply_none_iff.2 ⟨rfl, hzero⟩), by decide⟩

/-- A loop that calls `do_stack` fails when `do_stack` does, unless it drops the return
value. -/
lemma fails_iff (happ : ∃ top_c ∈ info.opr.head?, caller.Applies top_c) :
    caller.Fails ovf info ↔ caller ≠ .bracket ∧ Short info := by
  obtain ⟨top_c, htop, happ⟩ := happ
  match info, htop with
  | ⟨num, _ :: opr, flag⟩, rfl =>
      rw [← doStack_neg_iff ovf (by simp)]
      cases caller with
      | opr c =>
          constructor
          · rintro ⟨info', h⟩
            obtain hpush | ⟨-, ret, info'', hdo, hret⟩ := oprHandleBody_ends h
            · simp at hpush
            · split_ifs at hret with hneg
              exact ⟨by simp, ret, info'', hdo, hneg⟩
          · rintro ⟨-, ret, info', hdo, hneg⟩
            refine ⟨info', ?_⟩
            rw [oprHandleBody_of_le happ]
            exact (doStack_ends_iff.2 hdo).bind (by simp [hneg])
      | bracket =>
          -- `bracket_handle` drops the return value and goes on
          refine iff_of_false ?_ (by simp)
          rintro ⟨info', h⟩
          obtain ⟨hnil, -⟩ | ⟨opr', hopen, -⟩ | ⟨-, ret, info'', -, hret⟩ :=
            bracketHandleBody_ends h
          · simp at hnil
          · exact happ (List.cons.inj hopen).1
          · simp at hret
      | main =>
          constructor
          · rintro ⟨ret, info', h⟩
            obtain ⟨hnil, -⟩ | ⟨hopen, -⟩ | ⟨-, ret, info'', hdo, hret⟩ := drainBody_ends h
            · simp at hnil
            · exact absurd (by simpa using hopen) happ
            · split_ifs at hret with hneg
              exact ⟨by simp, ret, info'', hdo, hneg⟩
          · rintro ⟨-, ret, info', hdo, hneg⟩
            refine ⟨-2, info', ?_⟩
            rw [drainBody_of_ne happ]
            exact (doStack_ends_iff.2 hdo).bind (by simp [hneg])

/-! ### The ends of a run -/

variable (ovf) in
/-- A sign never fails. -/
lemma oprHandle_sign {c : Char} (h : ¬ (info.flag = .NUM ∨ c ≠ '+' ∧ c ≠ '-')) :
    ∃ p, (oprHandle ovf c info).Ends (.ok p) ∧ p.1 = 0 := by
  obtain ⟨hflag, hsign⟩ := sign_of_not_binary h
  obtain ⟨num, opr, flag⟩ := info
  obtain rfl : flag = .OPR := hflag
  rcases hsign with rfl | rfl
  · exact ⟨_, Comp.ends_pure.2 rfl, rfl⟩
  · exact ⟨_, Comp.ends_pure.2 rfl, rfl⟩

/-- A failing call leaves `calc_main` through an error exit. -/
lemma errorExit_of_fails (hstart : caller.Starts ovf s start)
    (hrounds : caller.Rounds ovf start info) (h : caller.Fails ovf info) : ErrorExit ovf s := by
  cases caller with
  | opr c =>
      obtain ⟨t, u, info₀, rfl, hc, ht, hbinary, rfl⟩ := hstart
      obtain ⟨n, hn⟩ := hrounds
      obtain ⟨info', h⟩ := h
      have hopr : (oprHandle ovf c info₀).Ends (.ok (-1, info')) := by
        rw [oprHandle_of_binary hbinary, oprPush_ends_iff]
        exact hn.ends h.loop_inr
      have hchar : (charHandle ovf c info₀).Ends (.ok (some (-1), info')) := by
        rw [charHandle_opr hc]
        exact hopr.bind (by simp)
      exact ⟨-1, info', Or.inl ((scan_stops_iff (by simp)).2 ⟨t, c, u, info₀, rfl, ht, hchar⟩)⟩
  | bracket =>
      obtain ⟨t, u, rfl, ht⟩ := hstart
      obtain ⟨n, hn⟩ := hrounds
      obtain ⟨info', h⟩ := h
      have hchar : (charHandle ovf ')' start).Ends (.ok (some (-1), info')) := by
        rw [charHandle_close]
        exact (hn.ends h.loop_inr).bind (by simp)
      exact ⟨-1, info', Or.inl ((scan_stops_iff (by simp)).2 ⟨t, ')', u, start, rfl, ht, hchar⟩)⟩
  | main =>
      obtain ⟨n, hn⟩ := hrounds
      obtain ⟨ret, info', h⟩ := h
      exact ⟨ret, info', Or.inr ⟨start, hstart, hn.ends h.loop_inr⟩⟩

/-- `opr_handle` fails only in its loop, and the loop at a call. -/
lemma oprHandle_neg {c : Char} {p : ℤ × CalcInfo} (h : (oprHandle ovf c info).Ends (.ok p))
    (hneg : p.1 < 0) : (info.flag = .NUM ∨ c ≠ '+' ∧ c ≠ '-') ∧
      ∃ i, (Caller.opr c).Rounds ovf { info with flag := .OPR } i ∧
        (∃ top_c ∈ i.opr.head?, (Caller.opr c).Applies top_c) ∧ (Caller.opr c).Fails ovf i := by
  by_cases hbinary : info.flag = .NUM ∨ c ≠ '+' ∧ c ≠ '-'
  · rw [oprHandle_of_binary hbinary, oprPush_ends_iff] at h
    obtain ⟨i, hrounds, rfl | ⟨happ, -, hfails, -⟩⟩ := oprLoop_exit h
    · exact absurd hneg (lt_irrefl _)
    · exact ⟨hbinary, i, hrounds, happ, hfails⟩
  · obtain ⟨q, hq, hzero⟩ := oprHandle_sign ovf hbinary
    obtain rfl : p = q := by simpa using h.unique hq
    exact absurd hneg (by simp [hzero])

/-- A character that ends the run is unknown, an operator whose loop fails or a closing
bracket without its partner. -/
lemma charHandle_some {c : Char} {ret : ℤ}
    (h : (charHandle ovf c info).Ends (.ok (some ret, info'))) :
    ¬ Known c ∨
      (IsOpr c ∧ (info.flag = .NUM ∨ c ≠ '+' ∧ c ≠ '-') ∧
        ∃ i, (Caller.opr c).Rounds ovf { info with flag := .OPR } i ∧
          (∃ top_c ∈ i.opr.head?, (Caller.opr c).Applies top_c) ∧ (Caller.opr c).Fails ovf i) ∨
      c = ')' ∧ ∃ i, Caller.bracket.Rounds ovf info i ∧ i.opr = [] := by
  rcases charHandle_cases h with ⟨-, hnone, -⟩ | ⟨hopr, iret, hret, ho⟩ | ⟨-, hp⟩ | ⟨-, hp⟩ |
      ⟨rfl, iret, hret, hloop⟩ | ⟨hunknown, -⟩
  · simp at hnone
  · have hneg : iret < 0 := by
      by_contra hneg
      simp [hneg] at hret
    exact Or.inr (Or.inl ⟨hopr, oprHandle_neg ho hneg⟩)
  · simp at hp
  · simp at hp
  · obtain ⟨i, hrounds, ⟨hnil, -⟩ | ⟨opr, -, hzero⟩⟩ := bracketLoop_exit hloop
    · exact Or.inr (Or.inr ⟨rfl, i, hrounds, hnil⟩)
    · obtain ⟨rfl, -⟩ : iret = 0 ∧ info' = _ := by simpa using hzero
      simp at hret
  · exact Or.inl hunknown

/-- **The error exits.**  They are taken at an unknown character, at a bracket without its
partner, or after a call of `do_stack` that fails. -/
theorem errorExit_iff : ErrorExit ovf s ↔
    (∃ t c u i, s = t ++ c :: u ∧ (scan ovf t calcInit).Ends (.ok (none, i)) ∧ ¬ Known c) ∨
    (∃ start i, Caller.bracket.Starts ovf s start ∧ Caller.bracket.Rounds ovf start i ∧
      i.opr = []) ∨
    (∃ start i, Caller.main.Starts ovf s start ∧ Caller.main.Rounds ovf start i ∧
      i.opr.head? = some '(') ∨
    ∃ caller i, Calls ovf s caller i ∧ caller.Fails ovf i := by
  constructor
  · rintro ⟨ret, info', h | ⟨start, hstart, h⟩⟩
    · obtain ⟨t, c, u, i, rfl, ht, hc⟩ := (scan_stops_iff (by simp)).1 h
      rcases charHandle_some hc with hunknown | ⟨hopr, hbinary, i₁, hrounds, happ, hfails⟩ |
        ⟨rfl, i₁, hrounds, hnil⟩
      · exact Or.inl ⟨t, c, u, i, rfl, ht, hunknown⟩
      · exact Or.inr (Or.inr (Or.inr
          ⟨.opr c, i₁, ⟨⟨_, ⟨t, u, i, rfl, hopr, ht, hbinary, rfl⟩, hrounds⟩, happ⟩, hfails⟩))
      · exact Or.inr (Or.inl ⟨i, i₁, ⟨t, u, rfl, ht⟩, hrounds, hnil⟩)
    · obtain ⟨i, hrounds, ⟨-, hnone⟩ | ⟨hopen, -⟩ | ⟨happ, -, hfails, -⟩⟩ := drainLoop_exit h
      · simp at hnone
      · exact Or.inr (Or.inr (Or.inl ⟨start, i, hstart, hrounds, hopen⟩))
      · exact Or.inr (Or.inr (Or.inr ⟨.main, i, ⟨⟨start, hstart, hrounds⟩, happ⟩, hfails⟩))
  · rintro (⟨t, c, u, i, rfl, ht, hc⟩ | ⟨start, i, hstart, hrounds, hnil⟩ |
      ⟨start, i, hstart, hrounds, hopen⟩ | ⟨caller, i, ⟨⟨start, hstart, hrounds⟩, -⟩, hfails⟩)
    · refine ⟨-1, i, Or.inl ((scan_stops_iff (by simp)).2 ⟨t, c, u, i, rfl, ht, ?_⟩)⟩
      simp [charHandle_unknown hc]
    · refine errorExit_of_fails hstart hrounds ⟨i, ?_⟩
      obtain ⟨num, opr, flag⟩ := i
      obtain rfl : opr = [] := hnil
      exact Comp.ends_pure.2 rfl
    · refine errorExit_of_fails hstart hrounds ⟨-3, i, ?_⟩
      obtain ⟨num, opr, flag⟩ := i
      obtain ⟨opr', rfl⟩ := List.head?_eq_some_iff.1 hopen
      exact Comp.ends_pure.2 rfl
    · exact errorExit_of_fails hstart hrounds hfails

/-- Through an error exit `calc_main` returns the error code. -/
lemma ErrorExit.calcMain_ends (h : ErrorExit ovf s) :
    ∃ ret info', (calcMain ovf calcInit s).Ends (.ok (ret, info')) := by
  obtain ⟨ret, info', hscan | ⟨info, hscan, hdrain⟩⟩ := h
  · exact ⟨ret, info', hscan.bind (Comp.ends_pure.2 rfl)⟩
  · exact ⟨ret, info', hscan.bind (hdrain.bind (Comp.ends_pure.2 rfl))⟩

/-- A run that returns takes an error exit, or gets through both loops. -/
lemma errorExit_or_value {p : ℤ × CalcInfo} (h : (calcMain ovf calcInit s).Ends (.ok p)) :
    ErrorExit ovf s ∨ ∃ info info', (scan ovf s calcInit).Ends (.ok (none, info)) ∧
      (Comp.loop (drainBody ovf) info).Ends (.ok (none, info')) := by
  obtain ⟨⟨ret, info⟩, hscan, hrest⟩ := Comp.ends_bind_ok_iff.1 h
  match ret, hscan, hrest with
  | some ret, hscan, _ => exact Or.inl ⟨ret, info, Or.inl hscan⟩
  | none, hscan, hrest =>
      obtain ⟨⟨ret, info'⟩, hdrain, -⟩ := Comp.ends_bind_ok_iff.1 hrest
      match ret, hdrain with
      | some ret, hdrain => exact Or.inl ⟨ret, info', Or.inr ⟨info, hscan, hdrain⟩⟩
      | none, hdrain => exact Or.inr ⟨info, info', hscan, hdrain⟩

/-! ### Faults -/

/-- `do_stack` faults only in an operation. -/
lemma doStack_fault {e : Fault} (h : (doStack ovf info).Ends (.error e)) :
    ∃ b a num c opr, info.num = b :: a :: num ∧ info.opr = c :: opr ∧
      (apply ovf c a b).Ends (.error e) := by
  match info, h with
  | ⟨[], _, _⟩, h => simp [doStack] at h
  | ⟨[_], _, _⟩, h => simp [doStack] at h
  | ⟨_ :: _ :: _, [], _⟩, h => simp [doStack] at h
  | ⟨b :: a :: num, c :: opr, _⟩, h =>
      refine ⟨b, a, num, c, opr, rfl, rfl, Comp.Ends.fault_of_bind h fun r => ?_⟩
      cases r <;> simp

/-- A loop faults in a call of `do_stack`. -/
lemma oprLoop_fault {c : Char} {e : Fault}
    (h : (Comp.loop (oprHandleBody ovf c) info).Ends (.error e)) :
    ∃ i, (Caller.opr c).Rounds ovf info i ∧
      (∃ top_c ∈ i.opr.head?, (Caller.opr c).Applies top_c) ∧
      (doStack ovf i).Ends (.error e) := by
  obtain ⟨n, i, hn, hbody⟩ := Comp.loop_ends_error_iff.1 h
  refine ⟨i, ⟨n, hn⟩, ?_⟩
  obtain ⟨num, _ | ⟨top_c, opr⟩, flag⟩ := i
  · simp [oprHandleBody] at hbody
  · by_cases hlevel : opr2level top_c < opr2level c
    · simp [oprHandleBody, hlevel] at hbody
    · rw [oprHandleBody_of_le hlevel] at hbody
      exact ⟨⟨top_c, rfl, hlevel⟩, hbody.fault_of_bind fun p => by split <;> simp⟩

lemma bracketLoop_fault {e : Fault}
    (h : (Comp.loop (bracketHandleBody ovf) info).Ends (.error e)) :
    ∃ i, Caller.bracket.Rounds ovf info i ∧
      (∃ top_c ∈ i.opr.head?, Caller.bracket.Applies top_c) ∧ (doStack ovf i).Ends (.error e) := by
  obtain ⟨n, i, hn, hbody⟩ := Comp.loop_ends_error_iff.1 h
  refine ⟨i, ⟨n, hn⟩, ?_⟩
  obtain ⟨num, _ | ⟨top_c, opr⟩, flag⟩ := i
  · simp [bracketHandleBody] at hbody
  · by_cases hopen : top_c = '('
    · simp [bracketHandleBody, hopen] at hbody
    · rw [bracketHandleBody_of_ne hopen] at hbody
      exact ⟨⟨top_c, rfl, hopen⟩, hbody.fault_of_bind fun p => by simp⟩

lemma drainLoop_fault {e : Fault} (h : (Comp.loop (drainBody ovf) info).Ends (.error e)) :
    ∃ i, Caller.main.Rounds ovf info i ∧
      (∃ top_c ∈ i.opr.head?, Caller.main.Applies top_c) ∧ (doStack ovf i).Ends (.error e) := by
  obtain ⟨n, i, hn, hbody⟩ := Comp.loop_ends_error_iff.1 h
  refine ⟨i, ⟨n, hn⟩, ?_⟩
  obtain ⟨num, _ | ⟨top_c, opr⟩, flag⟩ := i
  · simp [drainBody] at hbody
  · by_cases hopen : top_c = '('
    · simp [drainBody, hopen] at hbody
    · rw [drainBody_of_ne hopen] at hbody
      exact ⟨⟨top_c, rfl, hopen⟩, hbody.fault_of_bind fun p => by split <;> simp⟩

lemma oprHandle_fault {c : Char} {e : Fault} (h : (oprHandle ovf c info).Ends (.error e)) :
    (info.flag = .NUM ∨ c ≠ '+' ∧ c ≠ '-') ∧
      (Comp.loop (oprHandleBody ovf c) { info with flag := .OPR }).Ends (.error e) := by
  by_cases hbinary : info.flag = .NUM ∨ c ≠ '+' ∧ c ≠ '-'
  · rw [oprHandle_of_binary hbinary, oprPush_ends_iff] at h
    exact ⟨hbinary, h⟩
  · obtain ⟨q, hq, -⟩ := oprHandle_sign ovf hbinary
    exact absurd (h.unique hq) (by simp)

/-- A character that faults is a digit, or an operator or a closing bracket whose loop
does. -/
lemma charHandle_fault {c : Char} {e : Fault} (h : (charHandle ovf c info).Ends (.error e)) :
    (IsDigit c ∧ (numHandle ovf c info).Ends (.error e)) ∨
      (IsOpr c ∧ (info.flag = .NUM ∨ c ≠ '+' ∧ c ≠ '-') ∧
        (Comp.loop (oprHandleBody ovf c) { info with flag := .OPR }).Ends (.error e)) ∨
      c = ')' ∧ (Comp.loop (bracketHandleBody ovf) info).Ends (.error e) := by
  by_cases hknown : Known c
  · rcases hknown with hdigit | hopr | hblank | rfl | rfl
    · rw [charHandle, if_pos hdigit] at h
      exact Or.inl ⟨hdigit, h.fault_of_bind fun p => by simp⟩
    · rw [charHandle_opr hopr] at h
      exact Or.inr (Or.inl ⟨hopr, oprHandle_fault (h.fault_of_bind fun p => by simp)⟩)
    · rw [charHandle_blank hblank] at h
      simp at h
    · simp [charHandle, bracketHandle, IsDigit] at h
    · rw [charHandle_close] at h
      exact Or.inr (Or.inr ⟨rfl, h.fault_of_bind fun p => by simp⟩)
  · rw [charHandle_unknown hknown] at h
    simp at h

/-- A call of `calc` faults at a digit or in a call of `do_stack`. -/
lemma calcMain_fault_from {info₀ : CalcInfo} {e : Fault}
    (h : (calcMain ovf info₀ s).Ends (.error e)) :
    (∃ t c u i, s = t ++ c :: u ∧ (scan ovf t info₀).Ends (.ok (none, i)) ∧ IsDigit c ∧
      (numHandle ovf c i).Ends (.error e)) ∨
    ∃ caller start i, Caller.StartsFrom ovf info₀ s caller start ∧ caller.Rounds ovf start i ∧
      (∃ top_c ∈ i.opr.head?, caller.Applies top_c) ∧ (doStack ovf i).Ends (.error e) := by
  rcases Comp.ends_bind_iff.1 h with ⟨⟨_ | ret, start⟩, hstart, hdrain⟩ | ⟨e', he, her⟩
  · have hloop : (Comp.loop (drainBody ovf) start).Ends (.error e) := by
      -- what follows the second loop cannot fault
      refine Comp.Ends.fault_of_bind hdrain fun p => ?_
      obtain ⟨_ | ret, ⟨_ | ⟨y, num⟩, opr, flag⟩⟩ := p <;> simp
    obtain ⟨i, hrounds, happ, hdo⟩ := drainLoop_fault hloop
    exact Or.inr ⟨.main, start, i, hstart, hrounds, happ, hdo⟩
  · simp at hdrain
  · obtain rfl : e = e' := by simpa using her
    obtain ⟨t, c, u, i, rfl, ht, hc⟩ := (scan_stops_iff (by simp)).1 he
    rcases charHandle_fault hc with hnum | ⟨hopr, hbinary, hloop⟩ | ⟨rfl, hloop⟩
    · exact Or.inl ⟨t, c, u, i, rfl, ht, hnum⟩
    · obtain ⟨i₁, hrounds, happ, hdo⟩ := oprLoop_fault hloop
      exact Or.inr ⟨.opr c, _, i₁, ⟨t, u, i, rfl, hopr, ht, hbinary, rfl⟩, hrounds, happ, hdo⟩
    · obtain ⟨i₁, hrounds, happ, hdo⟩ := bracketLoop_fault hloop
      exact Or.inr ⟨.bracket, i, i₁, ⟨t, u, rfl, ht⟩, hrounds, happ, hdo⟩

/-- A run on a fresh `calc_info` faults at a digit or in a call of `do_stack`. -/
lemma calcMain_fault {e : Fault} (h : (calcMain ovf calcInit s).Ends (.error e)) :
    (∃ t c u i, s = t ++ c :: u ∧ (scan ovf t calcInit).Ends (.ok (none, i)) ∧ IsDigit c ∧
      (numHandle ovf c i).Ends (.error e)) ∨
    ∃ caller i, Calls ovf s caller i ∧ (doStack ovf i).Ends (.error e) := by
  rcases calcMain_fault_from h with hnum | ⟨caller, start, i, hstart, hrounds, happ, hdo⟩
  · exact Or.inl hnum
  · exact Or.inr ⟨caller, i, ⟨⟨start, hstart, hrounds⟩, happ⟩, hdo⟩

/-- A character that faults ends the run. -/
lemma calcMain_fault_of_char {t u : List Char} {c : Char} {i : CalcInfo} {e : Fault}
    (hs : s = t ++ c :: u)
    (ht : (scan ovf t calcInit).Ends (.ok (none, i)))
    (hchar : (charHandle ovf c i).Ends (.error e)) :
    (calcMain ovf calcInit s).Ends (.error e) := by
  have hscan : (scan ovf s calcInit).Ends (.error e) :=
    (scan_stops_iff (by simp)).2 ⟨t, c, u, i, hs, ht, hchar⟩
  exact hscan.bind_fault

/-- So does a call of `do_stack`. -/
lemma Calls.fault {e : Fault} (h : Calls ovf s caller info)
    (hdo : (doStack ovf info).Ends (.error e)) : (calcMain ovf calcInit s).Ends (.error e) := by
  obtain ⟨⟨start, hstart, hrounds⟩, top_c, htop, happ⟩ := h
  obtain ⟨num, _ | ⟨top_c', opr⟩, flag⟩ := info
  · simp at htop
  obtain rfl : top_c' = top_c := by simpa using htop
  cases caller with
  | opr c =>
      obtain ⟨t, u, i, hs, hc, ht, hbinary, rfl⟩ := hstart
      obtain ⟨n, hn⟩ := hrounds
      have hbody : (oprHandleBody ovf c ⟨num, top_c' :: opr, flag⟩).Ends (.error e) := by
        rw [oprHandleBody_of_le happ]
        exact hdo.bind_fault
      have hopr : (oprHandle ovf c i).Ends (.error e) := by
        rw [oprHandle_of_binary hbinary, oprPush_ends_iff]
        exact hn.ends hbody.loop_fault
      refine calcMain_fault_of_char hs ht ?_
      rw [charHandle_opr hc]
      exact hopr.bind_fault
  | bracket =>
      obtain ⟨t, u, hs, ht⟩ := hstart
      obtain ⟨n, hn⟩ := hrounds
      have hbody : (bracketHandleBody ovf ⟨num, top_c' :: opr, flag⟩).Ends (.error e) := by
        rw [bracketHandleBody_of_ne happ]
        exact hdo.bind_fault
      refine calcMain_fault_of_char hs ht ?_
      rw [charHandle_close]
      exact (hn.ends hbody.loop_fault).bind_fault
  | main =>
      obtain ⟨n, hn⟩ := hrounds
      have hbody : (drainBody ovf ⟨num, top_c' :: opr, flag⟩).Ends (.error e) := by
        rw [drainBody_of_ne happ]
        exact hdo.bind_fault
      exact hstart.bind (hn.ends hbody.loop_fault).bind_fault

end Calc

end DemoClass
