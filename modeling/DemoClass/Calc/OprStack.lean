import DemoClass.Calc.Accepts

/-!
# What is on the operator stack

Calls of `calc` on one `calc_info` leave operators and brackets on the stack for the next one,
also when they fail.  `reachable_disciplined`: in every state of every sequence of calls, the last
of which need not end, nothing else is there; and whichever of the three loops calls `do_stack`,
an operator is on top then.
-/

namespace DemoClass

namespace Calc

variable (ovf : ℤ → Except Fault CInt)

/-- The `calc_info` behind calls of `calc` on the given strings, whatever they return. -/
def afterCalls : List (List Char) → CalcInfo → Comp Fault CalcInfo
  | [], info => pure info
  | s :: ss, info => do
    let (_, info) ← calcMain ovf info s
    afterCalls ss info

/-- The states of a call on `s` that begins with `info₀`: in front of each character, in each
round of a loop, and when it returns. -/
inductive During (info₀ : CalcInfo) (s : List Char) : CalcInfo → Prop
  | scanned {t u : List Char} {info : CalcInfo} : s = t ++ u →
      (scan ovf t info₀).Ends (.ok (none, info)) → During info₀ s info
  | round {caller : Caller} {start info : CalcInfo} : caller.StartsFrom ovf info₀ s start →
      caller.Rounds ovf start info → During info₀ s info
  | returned {ret : ℤ} {info : CalcInfo} : (calcMain ovf info₀ s).Ends (.ok (ret, info)) →
      During info₀ s info

/-- Some calls that return, and a further one, lead from `calc_init` to `info`. -/
def Reachable (info : CalcInfo) : Prop :=
  ∃ ss s info₀, (afterCalls ovf ss calcInit).Ends (.ok info₀) ∧ During ovf info₀ s info

/-- After some calls that return, a loop of a further one calls `do_stack` with `info`. -/
def EntersDoStack (info : CalcInfo) : Prop :=
  ∃ ss s info₀ caller start, (afterCalls ovf ss calcInit).Ends (.ok info₀) ∧
    Caller.StartsFrom ovf info₀ s caller start ∧ caller.Rounds ovf start info ∧
    ∃ top_c ∈ info.opr.head?, caller.Applies top_c

/-- Nothing but operators and opening brackets is on the stack. -/
def Disciplined (info : CalcInfo) : Prop := ∀ c ∈ info.opr, IsOpr c ∨ c = '('

variable {ovf} {info info' info₀ : CalcInfo} {c : Char} {s : List Char} {ss : List (List Char)}
  {caller : Caller}

/-! ### What one step does to the stack -/

lemma Disciplined.mono (h : Disciplined info) (hsub : info'.opr ⊆ info.opr) :
    Disciplined info' := fun c hc => h c (hsub hc)

lemma Disciplined.cons (h : Disciplined info) (hc : IsOpr c ∨ c = '(')
    (hsub : info'.opr ⊆ c :: info.opr) : Disciplined info' := by
  intro d hd
  rcases List.mem_cons.1 (hsub hd) with rfl | hd
  · exact hc
  · exact h d hd

lemma DoStack.opr_subset {ret : ℤ} (h : DoStack ovf info ret info') : info'.opr ⊆ info.opr := by
  cases h with
  | noNumber => exact List.Subset.refl _
  | oneNumber => exact List.Subset.refl _
  | noOpr => exact List.Subset.refl _
  | zero _ => exact List.subset_cons_self _ _
  | value _ => exact List.subset_cons_self _ _

lemma Caller.Rounds.opr_subset (h : caller.Rounds ovf info info') : info'.opr ⊆ info.opr :=
  h.invariant (I := fun i => i.opr ⊆ info.opr)
    (fun _ _ _ _ hdo hi => List.Subset.trans hdo.opr_subset hi) (List.Subset.refl _)

/-- The loop of `opr_handle` puts nothing but its own operator on the stack. -/
lemma oprLoop_subset {p : ℤ × CalcInfo}
    (h : (Comp.loop (oprHandleBody ovf c) info).Ends (.ok p)) : p.2.opr ⊆ c :: info.opr := by
  obtain ⟨i, hrounds, rfl | ⟨-, -, -, ret, hdo⟩⟩ := oprLoop_exit h
  · exact List.cons_subset_cons c hrounds.opr_subset
  · exact List.subset_cons_of_subset c (List.Subset.trans hdo.opr_subset hrounds.opr_subset)

lemma oprHandle_subset {p : ℤ × CalcInfo} (h : (oprHandle ovf c info).Ends (.ok p)) :
    p.2.opr ⊆ c :: info.opr := by
  by_cases hbinary : info.flag = .NUM ∨ c ≠ '+' ∧ c ≠ '-'
  · rw [oprHandle_of_binary hbinary, oprPush_ends_iff] at h
    have hsub := oprLoop_subset h
    exact hsub
  · -- a sign is dropped, or put on top
    obtain ⟨hflag, hsign⟩ := sign_of_not_binary hbinary
    obtain ⟨num, opr, flag⟩ := info
    obtain rfl : flag = .OPR := hflag
    rcases hsign with rfl | rfl
    · obtain rfl := Except.ok.inj (Comp.ends_pure.1 h)
      exact List.subset_cons_self _ _
    · obtain rfl := Except.ok.inj (Comp.ends_pure.1 h)
      exact List.Subset.refl _

lemma bracketLoop_subset {p : ℤ × CalcInfo}
    (h : (Comp.loop (bracketHandleBody ovf) info).Ends (.ok p)) : p.2.opr ⊆ info.opr := by
  obtain ⟨i, hrounds, ⟨-, rfl⟩ | ⟨opr, hopr, rfl⟩⟩ := bracketLoop_exit h
  · exact hrounds.opr_subset
  · refine List.Subset.trans ?_ hrounds.opr_subset
    rw [hopr]
    exact List.subset_cons_self _ _

lemma drainLoop_subset {p : Option ℤ × CalcInfo}
    (h : (Comp.loop (drainBody ovf) info).Ends (.ok p)) : p.2.opr ⊆ info.opr := by
  obtain ⟨i, hrounds, ⟨-, rfl⟩ | ⟨-, rfl⟩ | ⟨-, -, -, ret, hdo⟩⟩ := drainLoop_exit h
  · exact hrounds.opr_subset
  · exact hrounds.opr_subset
  · exact List.Subset.trans hdo.opr_subset hrounds.opr_subset

/-! ### What a call does to it -/

namespace Disciplined

lemma charHandle {p : Option ℤ × CalcInfo} (h : Disciplined info)
    (hchar : (Calc.charHandle ovf c info).Ends (.ok p)) : Disciplined p.2 := by
  rcases charHandle_cases hchar with ⟨-, -, hnum⟩ | ⟨hopr, iret, -, ho⟩ | ⟨-, rfl⟩ | ⟨-, rfl⟩ |
      ⟨-, iret, -, hloop⟩ | ⟨-, rfl⟩
  · rw [Disciplined, (numHandle_lags hnum).1]
    exact h
  · exact h.cons (Or.inl hopr) (oprHandle_subset ho)
  · exact h
  · exact h.cons (Or.inr rfl) (List.Subset.refl _)
  · exact h.mono (bracketLoop_subset hloop)
  · exact h

lemma scan {p : Option ℤ × CalcInfo} (h : Disciplined info)
    (hscan : (Calc.scan ovf s info).Ends (.ok p)) : Disciplined p.2 := by
  induction s generalizing info with
  | nil =>
      obtain rfl := Except.ok.inj (Comp.ends_pure.1 hscan)
      exact h
  | cons c s ih =>
      obtain ⟨⟨_ | ret, info₁⟩, hchar, hrest⟩ := Comp.ends_bind_ok_iff.1 hscan
      · exact ih (h.charHandle hchar) hrest
      · obtain rfl := Except.ok.inj (Comp.ends_pure.1 hrest)
        exact h.charHandle hchar

lemma calcMain {p : ℤ × CalcInfo} (h : Disciplined info)
    (hcall : (Calc.calcMain ovf info s).Ends (.ok p)) : Disciplined p.2 := by
  obtain ⟨⟨_ | ret, info₁⟩, hscan, hrest⟩ := Comp.ends_bind_ok_iff.1 hcall
  · obtain ⟨⟨ret, info₂⟩, hloop, hret⟩ := Comp.ends_bind_ok_iff.1 hrest
    have h₂ := (h.scan hscan).mono (drainLoop_subset hloop)
    -- the value that is returned is taken off the other stack
    obtain ⟨num, opr, flag⟩ := info₂
    rcases ret with _ | ret
    · rcases num with _ | ⟨v, num⟩
      · obtain rfl := Except.ok.inj (Comp.ends_pure.1 hret)
        exact h₂
      · obtain rfl := Except.ok.inj (Comp.ends_pure.1 hret)
        exact h₂
    · obtain rfl := Except.ok.inj (Comp.ends_pure.1 hret)
      exact h₂
  · obtain rfl := Except.ok.inj (Comp.ends_pure.1 hrest)
    exact h.scan hscan

lemma afterCalls (h : Disciplined info)
    (hcalls : (Calc.afterCalls ovf ss info).Ends (.ok info')) : Disciplined info' := by
  induction ss generalizing info with
  | nil =>
      obtain rfl := Except.ok.inj (Comp.ends_pure.1 hcalls)
      exact h
  | cons s ss ih =>
      obtain ⟨p, hcall, hrest⟩ := Comp.ends_bind_ok_iff.1 hcalls
      exact ih (h.calcMain hcall) hrest

lemma startsFrom (h : Disciplined info₀) (hstart : caller.StartsFrom ovf info₀ s info) :
    Disciplined info := by
  cases caller with
  | opr c =>
      obtain ⟨t, u, i, -, -, hscan, -, rfl⟩ := hstart
      exact h.scan hscan
  | bracket =>
      obtain ⟨t, u, -, hscan⟩ := hstart
      exact h.scan hscan
  | main => exact h.scan hstart

lemma during (h : Disciplined info₀) (hd : During ovf info₀ s info) : Disciplined info := by
  cases hd with
  | scanned _ hscan => exact h.scan hscan
  | round hstart hrounds => exact (h.startsFrom hstart).mono hrounds.opr_subset
  | returned hcall => exact h.calcMain hcall

end Disciplined

lemma disciplined_calcInit : Disciplined calcInit := fun c hc => absurd hc (by simp [calcInit])

/-! ### The calls of `do_stack` -/

/-- A loop for an operator is one of `opr_handle`. -/
lemma Caller.StartsFrom.isOpr (h : caller.StartsFrom ovf info₀ s info) :
    ∀ c, caller = .opr c → IsOpr c := by
  rintro c rfl
  obtain ⟨t, u, i, -, hc, -⟩ := h
  exact hc

/-- On a stack of operators and brackets, each loop calls `do_stack` for an operator only. -/
lemma Disciplined.top_isOpr {start : CalcInfo} (h : Disciplined info₀)
    (hstart : caller.StartsFrom ovf info₀ s start) (hrounds : caller.Rounds ovf start info)
    (happ : ∃ top_c ∈ info.opr.head?, caller.Applies top_c) : ∃ c ∈ info.opr.head?, IsOpr c := by
  obtain ⟨top_c, htop, happ⟩ := happ
  have hinfo : Disciplined info := (h.startsFrom hstart).mono hrounds.opr_subset
  exact ⟨top_c, htop, (hinfo top_c (List.mem_of_mem_head? htop)).resolve_right
    (happ.ne_open hstart.isOpr)⟩

/-- The operations of the five operators are all there. -/
lemma apply_not_uninit {a b : CInt} (hovf : ∀ n, ovf n ≠ .error .uninit) (hc : IsOpr c) :
    ¬ (apply ovf c a b).Ends (.error .uninit) := by
  intro h
  rcases apply_cases h with ⟨v, hr⟩ | ⟨n, e, hn, hr⟩ | ⟨-, hr⟩ | ⟨-, -, hr⟩ | ⟨hnot, -⟩
  · cases hr
  · cases hr
    exact hovf n hn
  · cases hr
  · cases hr
  · obtain ⟨hplus, hminus, hmul, hdiv, hmod⟩ := hnot
    rcases hc with hc | hc | hc | hc | hc
    · exact hmul hc
    · exact hdiv hc
    · exact hmod hc
    · exact hplus hc
    · exact hminus hc

/-- `do_stack` knows every operator that a call of `calc` comes to. -/
lemma Disciplined.calcMain_not_uninit (h : Disciplined info₀) (hovf : ∀ n, ovf n ≠ .error .uninit) :
    ¬ (Calc.calcMain ovf info₀ s).Ends (.error .uninit) := by
  intro hcall
  rcases calcMain_fault_from hcall with
    ⟨t, c, u, i, -, -, -, hnum⟩ | ⟨caller, start, i, hstart, hrounds, happ, hdo⟩
  · exact numHandle_fault hovf hnum
  · obtain ⟨c, htop, hc⟩ := h.top_isOpr hstart hrounds happ
    obtain ⟨b, a, num, d, opr, -, hopr, happly⟩ := doStack_fault hdo
    obtain rfl : d = c := by simpa [hopr] using htop
    exact apply_not_uninit hovf hc happly

lemma Disciplined.afterCalls_not_uninit (h : Disciplined info)
    (hovf : ∀ n, ovf n ≠ .error .uninit) :
    ¬ (Calc.afterCalls ovf ss info).Ends (.error .uninit) := by
  induction ss generalizing info with
  | nil => exact fun hcalls => by simpa using Comp.ends_pure.1 hcalls
  | cons s ss ih =>
      intro hcalls
      refine h.calcMain_not_uninit (s := s) hovf ?_
      rcases Comp.ends_bind_iff.1 hcalls with ⟨p, hcall, hrest⟩ | ⟨e, he, hee⟩
      · exact absurd hrest (ih (h.calcMain hcall))
      · obtain rfl : Fault.uninit = e := by simpa using hee
        exact he

/-- **The discipline of the operator stack.**  In every state of every sequence of calls nothing
but `+`, `-`, `*`, `/`, `%` and `(` is on the operator stack.  Whenever `do_stack` is called, one of
the five operators is on top, so its third pop does not fail; and no sequence of calls comes to an
operator that `do_stack` does not support. -/
theorem reachable_disciplined (ovf : ℤ → Except Fault CInt) :
    (∀ info, Reachable ovf info → ∀ c ∈ info.opr, IsOpr c ∨ c = '(') ∧
      (∀ info, EntersDoStack ovf info → (∃ c ∈ info.opr.head?, IsOpr c) ∧
        ∀ info', ¬ (doStack ovf info).Ends (.ok (-2, info'))) ∧
      ((∀ n, ovf n ≠ .error .uninit) →
        ∀ ss, ¬ (afterCalls ovf ss calcInit).Ends (.error .uninit)) := by
  refine ⟨?_, ?_, fun hovf ss => disciplined_calcInit.afterCalls_not_uninit hovf⟩
  · rintro info ⟨ss, s, info₀, hcalls, hd⟩
    exact (disciplined_calcInit.afterCalls hcalls).during hd
  · rintro info ⟨ss, s, info₀, caller, start, hcalls, hstart, hrounds, happ⟩
    have htop : ∃ c ∈ info.opr.head?, IsOpr c :=
      (disciplined_calcInit.afterCalls hcalls).top_isOpr hstart hrounds happ
    refine ⟨htop, fun info' hdo => ?_⟩
    cases doStack_ends_iff.1 hdo with
    | noOpr => simp at htop

/-- The bracket that a failed call on `(1` leaves is below the `+` of a call on `+2`. -/
theorem reachable_disciplined_left_over :
    (∀ c ∈ ['+', '('], IsOpr c ∨ c = '(') ∧ (∃ c ∈ ['+', '('].head?, IsOpr c) ∧
      ∀ ss, ¬ (afterCalls (fun _ => .error .overflow) ss calcInit).Ends (.error .uninit) := by
  obtain ⟨hstack, hcalled, hruns⟩ := reachable_disciplined fun _ => .error .overflow
  have hfirst : (afterCalls (fun _ => .error .overflow) [['(', '1']] calcInit).Ends
      (.ok ⟨[⟨1, by decide⟩], ['('], .NUM⟩) := ⟨2, rfl⟩
  have hsecond : (scan (fun _ => .error .overflow) ['+', '2'] ⟨[⟨1, by decide⟩], ['('], .NUM⟩).Ends
      (.ok (none, ⟨[⟨2, by decide⟩, ⟨1, by decide⟩], ['+', '('], .NUM⟩)) := ⟨2, rfl⟩
  refine ⟨hstack _ ⟨_, _, _, hfirst, .scanned (u := []) rfl hsecond⟩, ?_, hruns (by simp)⟩
  exact (hcalled _ ⟨_, _, _, .main, _, hfirst, hsecond, .refl _ _, '+', rfl,
    by simp [Caller.Applies]⟩).1

end Calc

end DemoClass
