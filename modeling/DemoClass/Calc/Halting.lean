import DemoClass.Calc.Machine

/-!
# When the calculator stops

`DoStack` says what `do_stack` can do.  A call that fails for want of numbers leaves the
operator stack as it was, and `bracket_handle` tries again: its loop stops exactly when
the operators above the nearest opening bracket find their numbers, `Closes`.  All
other loops take an operator off the stack in every round.
-/

namespace DemoClass

namespace Calc

variable (ovf : ℤ → Except Fault CInt)

/-- The ways in which `do_stack` returns. -/
inductive DoStack : CalcInfo → ℤ → CalcInfo → Prop
  | noNumber {opr : List Char} {flag : Flag} : DoStack ⟨[], opr, flag⟩ (-1) ⟨[], opr, flag⟩
  | oneNumber {b : CInt} {opr : List Char} {flag : Flag} :
      DoStack ⟨[b], opr, flag⟩ (-1) ⟨[], opr, flag⟩
  | noOpr {b a : CInt} {num : List CInt} {flag : Flag} :
      DoStack ⟨b :: a :: num, [], flag⟩ (-2) ⟨num, [], flag⟩
  | zero {b a : CInt} {num : List CInt} {c : Char} {opr : List Char} {flag : Flag} :
      (apply ovf c a b).Ends (.ok none) →
      DoStack ⟨b :: a :: num, c :: opr, flag⟩ (-3) ⟨num, opr, flag⟩
  | value {b a v : CInt} {num : List CInt} {c : Char} {opr : List Char} {flag : Flag} :
      (apply ovf c a b).Ends (.ok (some v)) →
      DoStack ⟨b :: a :: num, c :: opr, flag⟩ 0 ⟨v :: num, opr, flag⟩

/-- The operators above the nearest `(`, or all of them, always find two numbers. -/
def Closes : List Char → List CInt → Prop
  | [], _ => True
  | c :: opr, num => c = '(' ∨
      match num with
      | b :: a :: num => ∀ r, (apply ovf c a b).Ends (.ok r) → Closes opr (r.toList ++ num)
      | _ => False

/-- Whenever a `)` is read, the operators in front of it find their numbers. -/
def ClosesBrackets : List Char → CalcInfo → Prop
  | [], _ => True
  | c :: cs, info => (c = ')' → Closes ovf info.opr info.num) ∧
      ∀ info', (charHandle ovf c info).Ends (.ok (none, info')) → ClosesBrackets cs info'

variable {ovf} {info info' : CalcInfo} {ret : ℤ}

/-! ### `do_stack` -/

lemma doStack_ends_iff :
    (doStack ovf info).Ends (.ok (ret, info')) ↔ DoStack ovf info ret info' := by
  constructor
  · intro h
    obtain ⟨_ | ⟨b, _ | ⟨a, num⟩⟩, opr, flag⟩ := info
    · obtain ⟨rfl, rfl⟩ : ret = -1 ∧ info' = ⟨[], opr, flag⟩ := by simpa [doStack] using h
      exact .noNumber
    · obtain ⟨rfl, rfl⟩ : ret = -1 ∧ info' = ⟨[], opr, flag⟩ := by simpa [doStack] using h
      exact .oneNumber
    · rcases opr with _ | ⟨c, opr⟩
      · obtain ⟨rfl, rfl⟩ : ret = -2 ∧ info' = ⟨num, [], flag⟩ := by simpa [doStack] using h
        exact .noOpr
      · obtain ⟨_ | v, hr, hret⟩ := Comp.ends_bind_ok_iff.1 h
        · obtain ⟨rfl, rfl⟩ : ret = -3 ∧ info' = ⟨num, opr, flag⟩ := by simpa using hret
          exact .zero hr
        · obtain ⟨rfl, rfl⟩ : ret = 0 ∧ info' = ⟨v :: num, opr, flag⟩ := by simpa using hret
          exact .value hr
  · intro h
    cases h with
    | noNumber => simp [doStack]
    | oneNumber => simp [doStack]
    | noOpr => simp [doStack]
    | zero h => exact h.bind (by simp)
    | value h => exact h.bind (by simp)

lemma halts_toCInt (n : ℤ) : (toCInt ovf n).Halts := by
  rw [toCInt]
  split
  · exact Comp.halts_pure _
  · exact Comp.halts_ofExcept _

/-- Results that fit do not fail. -/
lemma toCInt_fault {n : ℤ} {e : Fault} (h : (toCInt ovf n).Ends (.error e)) :
    ovf n = .error e := by
  rw [toCInt] at h
  split at h
  · simp at h
  · exact (Comp.ends_ofExcept.1 h).symm

lemma halts_apply (c : Char) (a b : CInt) : (apply ovf c a b).Halts := by
  have hmap : ∀ n, (some <$> toCInt ovf n : Comp Fault (Option CInt)).Halts := fun n => by
    rw [map_eq_pure_bind]
    exact (halts_toCInt n).bind fun v _ => Comp.halts_pure _
  rw [apply]
  split_ifs <;> first
    | exact hmap _
    | exact Comp.halts_pure _
    | exact Comp.halts_fault _

/-- What an operation can end with. -/
lemma apply_cases {c : Char} {a b : CInt} {r : Except Fault (Option CInt)}
    (h : (apply ovf c a b).Ends r) :
    (∃ v, r = .ok (some v)) ∨ (∃ n e, ovf n = .error e ∧ r = .error e) ∨
      (c = '/' ∧ b.1 = 0) ∧ r = .ok none ∨
      (c = '/' ∧ b.1 ≠ 0 ∨ c = '%') ∧ (b.1 = 0 ∨ ¬ InInt (a.1.tdiv b.1)) ∧ r = .error .divide ∨
      (c ≠ '+' ∧ c ≠ '-' ∧ c ≠ '*' ∧ c ≠ '/' ∧ c ≠ '%') ∧ r = .error .uninit := by
  -- five of the branches compute a number, which may not fit
  have hmap : ∀ n, (some <$> toCInt ovf n : Comp Fault (Option CInt)).Ends r →
      (∃ v, r = .ok (some v)) ∨ ∃ n e, ovf n = .error e ∧ r = .error e := by
    intro n h
    rw [map_eq_pure_bind] at h
    rcases Comp.ends_bind_iff.1 h with ⟨v, -, hv⟩ | ⟨e, he, rfl⟩
    · exact Or.inl ⟨v, Comp.ends_pure.1 hv⟩
    · exact Or.inr ⟨n, e, toCInt_fault he, rfl⟩
  rw [apply] at h
  split_ifs at h with hplus hminus hmul hdiv hzero hfits hmod htrap
  · exact (hmap _ h).imp_right Or.inl
  · exact (hmap _ h).imp_right Or.inl
  · exact (hmap _ h).imp_right Or.inl
  · exact Or.inr (Or.inr (Or.inl ⟨⟨hdiv, hzero⟩, Comp.ends_pure.1 h⟩))
  · exact (hmap _ h).imp_right Or.inl
  · exact Or.inr (Or.inr (Or.inr (Or.inl
      ⟨Or.inl ⟨hdiv, hzero⟩, Or.inr hfits, Comp.ends_fault.1 h⟩)))
  · exact Or.inr (Or.inr (Or.inr (Or.inl ⟨Or.inr hmod, htrap, Comp.ends_fault.1 h⟩)))
  · exact (hmap _ h).imp_right Or.inl
  · exact Or.inr (Or.inr (Or.inr (Or.inr
      ⟨⟨hplus, hminus, hmul, hdiv, hmod⟩, Comp.ends_fault.1 h⟩)))

/-- The only operation that `do_stack` refuses. -/
lemma apply_none_iff {c : Char} {a b : CInt} :
    (apply ovf c a b).Ends (.ok none) ↔ c = '/' ∧ b.1 = 0 := by
  constructor
  · intro h
    rcases apply_cases h with ⟨v, hr⟩ | ⟨n, e, -, hr⟩ | ⟨hc, -⟩ | ⟨-, -, hr⟩ | ⟨-, hr⟩
    · simp at hr
    · cases hr
    · exact hc
    · cases hr
    · cases hr
  · rintro ⟨rfl, hzero⟩
    simp [apply, hzero]

lemma halts_doStack (info : CalcInfo) : (doStack ovf info).Halts := by
  match info with
  | ⟨[], _, _⟩ => exact Comp.halts_pure _
  | ⟨[_], _, _⟩ => exact Comp.halts_pure _
  | ⟨_ :: _ :: _, [], _⟩ => exact Comp.halts_pure _
  | ⟨b :: a :: num, c :: opr, _⟩ =>
      refine (halts_apply c a b).bind fun r _ => ?_
      cases r <;> exact Comp.halts_pure _

/-- Reading a digit fails only with a number that does not fit. -/
lemma numHandle_fault {c : Char} {info : CalcInfo} {e : Fault} (hovf : ∀ n, ovf n ≠ .error e) :
    ¬ (numHandle ovf c info).Ends (.error e) := by
  have hto : ∀ n, ¬ (toCInt ovf n).Ends (.error e) := fun n h => hovf n (toCInt_fault h)
  intro h
  rcases Comp.ends_bind_iff.1 h with ⟨n, -, hrest⟩ | ⟨e', he, hee⟩
  · match info, hrest with
    | ⟨_, _, .OPR⟩, hrest => simp at hrest
    | ⟨[], _, .NUM⟩, hrest => exact hto _ (hrest.fault_of_bind fun v => by simp)
    | ⟨p :: num, _, .NUM⟩, hrest =>
        refine hto (p.1 * 10) (hrest.fault_of_bind fun m hm => ?_)
        exact hto _ (hm.fault_of_bind fun v => by simp)
  · obtain rfl : e = e' := by simpa using hee
    exact hto _ he

lemma halts_numHandle (c : Char) (info : CalcInfo) : (numHandle ovf c info).Halts := by
  refine (halts_toCInt _).bind fun n _ => ?_
  match info with
  | ⟨_, _, .OPR⟩ => exact Comp.halts_pure _
  | ⟨_ :: _, _, .NUM⟩ =>
      exact (halts_toCInt _).bind fun m _ => (halts_toCInt _).bind fun n _ => Comp.halts_pure _
  | ⟨[], _, .NUM⟩ => exact (halts_toCInt _).bind fun n _ => Comp.halts_pure _

/-- `do_stack` succeeds only by applying an operator. -/
lemma DoStack.opr_lt (h : DoStack ovf info ret info') (hret : 0 ≤ ret) :
    info'.opr.length < info.opr.length := by
  cases h with
  | value _ => simp
  | noNumber => omega
  | oneNumber => omega
  | noOpr => omega
  | zero _ => omega

/-! ### Loops that always stop -/

variable (ovf) in
/-- A loop that is left, or applies `do_stack` and is left when that fails. -/
lemma halts_reduceLoop {κ : Type} {body : CalcInfo → Comp Fault (CalcInfo ⊕ (κ × CalcInfo))}
    (hbody : ∀ info, (∃ v, body info = pure (.inr v)) ∨ ∃ code, body info =
      doStack ovf info >>= fun p =>
        if p.1 < 0 then pure (.inr (code, p.2)) else pure (.inl p.2)) (info : CalcInfo) :
    (Comp.loop body info).Halts := by
  refine Comp.halts_loop (fun s => s.opr.length) (fun s => ?_) (fun s t h => ?_) info
  · rcases hbody s with ⟨v, hv⟩ | ⟨code, hv⟩ <;> rw [hv]
    · exact Comp.halts_pure _
    · refine (halts_doStack s).bind fun p _ => ?_
      split <;> exact Comp.halts_pure _
  · rcases hbody s with ⟨v, hv⟩ | ⟨code, hv⟩ <;> rw [hv] at h
    · simp at h
    · obtain ⟨⟨ret, info'⟩, hdo, hret⟩ := Comp.ends_bind_ok_iff.1 h
      dsimp only at hret
      split at hret
      · simp at hret
      · obtain rfl : t = info' := by simpa using hret
        exact (doStack_ends_iff.1 hdo).opr_lt (not_lt.1 ‹_›)

lemma halts_oprHandle (c : Char) (info : CalcInfo) : (oprHandle ovf c info).Halts := by
  have hpush : ∀ info, (oprPush ovf c info).Halts := by
    intro info
    rw [oprPush]
    split
    · exact Comp.halts_pure _
    · refine halts_reduceLoop ovf (fun info => ?_) _
      obtain ⟨num, _ | ⟨top_c, opr⟩, flag⟩ := info
      · exact Or.inl ⟨_, rfl⟩
      · by_cases hlevel : opr2level top_c < opr2level c
        · exact Or.inl ⟨_, if_pos hlevel⟩
        · exact Or.inr ⟨-1, if_neg hlevel⟩
  obtain ⟨num, opr, _ | _⟩ := info
  · rw [oprHandle]
    split_ifs
    · exact Comp.halts_pure _
    · exact Comp.halts_pure _
    · exact hpush _
  · exact hpush _

lemma halts_drain (info : CalcInfo) : (drain ovf info).Halts := by
  have hloop : (Comp.loop (drainBody ovf) info).Halts := by
    refine halts_reduceLoop ovf (fun info => ?_) _
    match info with
    | ⟨num, [], flag⟩ => exact Or.inl ⟨_, rfl⟩
    | ⟨num, top_c :: opr, flag⟩ =>
        by_cases hopen : top_c = '('
        · exact Or.inl ⟨_, if_pos hopen⟩
        · exact Or.inr ⟨some (-2), if_neg hopen⟩
  refine hloop.bind fun p _ => ?_
  match p with
  | (some _, _) => exact Comp.halts_pure _
  | (none, ⟨[], _, _⟩) => exact Comp.halts_pure _
  | (none, ⟨_ :: _, _, _⟩) => exact Comp.halts_pure _

/-! ### The loop of `bracket_handle` -/

/-- Without two numbers `do_stack` fails again and again. -/
lemma not_halts_bracket {c : Char} {opr : List Char} {flag : Flag} (hc : c ≠ '(') :
    ¬ (Comp.loop (bracketHandleBody ovf) ⟨[], c :: opr, flag⟩).Halts := by
  -- nothing changes in a round
  refine Comp.not_halts_loop (I := fun s => s = ⟨[], c :: opr, flag⟩) ?_ rfl
  rintro s rfl
  exact ⟨_, rfl, by simp [bracketHandleBody, hc, doStack]⟩

/-- With two numbers there is a round that takes the operator away. -/
lemma bracketHandleBody_apply {c : Char} {b a : CInt} {num : List CInt} {opr : List Char}
    {flag : Flag} {r : Option CInt} (hc : c ≠ '(') (hr : (apply ovf c a b).Ends (.ok r)) :
    (bracketHandleBody ovf ⟨b :: a :: num, c :: opr, flag⟩).Ends
      (.ok (.inl ⟨r.toList ++ num, opr, flag⟩)) := by
  rw [bracketHandleBody_of_ne hc]
  cases r with
  | none => exact (doStack_ends_iff.2 (.zero hr)).bind (by simp)
  | some v => exact (doStack_ends_iff.2 (.value hr)).bind (by simp)

lemma closes_cons {c : Char} {opr : List Char} {num : List CInt} :
    Closes ovf (c :: opr) num ↔ c = '(' ∨
      match num with
      | b :: a :: num => ∀ r, (apply ovf c a b).Ends (.ok r) → Closes ovf opr (r.toList ++ num)
      | _ => False := by
  match num with
  | [] => exact Iff.rfl
  | [_] => exact Iff.rfl
  | _ :: _ :: _ => exact Iff.rfl

lemma halts_bracket_iff {opr : List Char} {num : List CInt} {flag : Flag} :
    (Comp.loop (bracketHandleBody ovf) ⟨num, opr, flag⟩).Halts ↔ Closes ovf opr num := by
  induction opr generalizing num with
  | nil =>
      have hbody : (bracketHandleBody ovf ⟨num, [], flag⟩).Ends
          (.ok (.inr (-1, ⟨num, [], flag⟩))) := by simp [bracketHandleBody]
      exact iff_of_true hbody.loop_inr.halts trivial
  | cons c opr ih =>
      rw [closes_cons]
      by_cases hc : c = '('
      · have hbody : (bracketHandleBody ovf ⟨num, c :: opr, flag⟩).Ends
            (.ok (.inr (0, ⟨num, opr, flag⟩))) := by simp [bracketHandleBody, hc]
        exact iff_of_true hbody.loop_inr.halts (Or.inl hc)
      · rw [or_iff_right hc]
        match num with
        | [] => exact iff_of_false (not_halts_bracket hc) id
        | [b] =>
            have hbody : (bracketHandleBody ovf ⟨[b], c :: opr, flag⟩).Ends
                (.ok (.inl ⟨[], c :: opr, flag⟩)) := by
              simp [bracketHandleBody, hc, doStack]
            -- the number is lost, and the operator stays
            rw [hbody.loop_halts_iff]
            exact iff_of_false (not_halts_bracket hc) id
        | b :: a :: num =>
            have happly : (apply ovf c a b).Halts := halts_apply c a b
            -- an overflow or a trap ends the loop, too
            obtain ⟨e | r, hr⟩ := happly
            · have hbody : (bracketHandleBody ovf ⟨b :: a :: num, c :: opr, flag⟩).Ends
                  (.error e) := by
                rw [bracketHandleBody_of_ne hc]
                exact (hr.bind_fault).bind_fault
              refine iff_of_true hbody.loop_fault.halts fun r' hr' => ?_
              exact absurd (hr.unique hr') (by simp)
            · rw [(bracketHandleBody_apply hc hr).loop_halts_iff, ih]
              constructor
              · intro h r' hr'
                obtain rfl : r = r' := by simpa using hr.unique hr'
                exact h
              · intro h
                exact h r hr

/-! ### The whole run -/

lemma halts_charHandle_iff {c : Char} :
    (charHandle ovf c info).Halts ↔ (c = ')' → Closes ovf info.opr info.num) := by
  by_cases hc : c = ')'
  · subst hc
    have hloop : (Comp.loop (bracketHandleBody ovf) info).Halts ↔
        Closes ovf info.opr info.num := halts_bracket_iff
    rw [charHandle_close, ← hloop]
    simp only [forall_const]
    constructor
    · rintro ⟨r, hr⟩
      exact hr.of_bind
    · intro h
      exact h.bind fun p _ => Comp.halts_pure _
  · refine iff_of_true ?_ fun h => absurd h hc
    rw [charHandle]
    split_ifs with _ _ _ hbracket
    · exact (halts_numHandle c info).bind fun _ _ => Comp.halts_pure _
    · exact (halts_oprHandle c info).bind fun p _ => Comp.halts_pure _
    · exact Comp.halts_pure _
    · have hopen : c = '(' := hbracket.resolve_right hc
      simp only [bracketHandle, if_pos hopen]
      exact (Comp.halts_pure _).bind fun p _ => Comp.halts_pure _
    · exact Comp.halts_pure _

lemma halts_scan_iff {expr : List Char} :
    (scan ovf expr info).Halts ↔ ClosesBrackets ovf expr info := by
  induction expr generalizing info with
  | nil => exact iff_of_true (Comp.halts_pure _) trivial
  | cons c cs ih =>
      rw [ClosesBrackets, ← halts_charHandle_iff]
      constructor
      · rintro ⟨r, hr⟩
        have hhalts : (charHandle ovf c info).Halts := hr.of_bind
        refine ⟨hhalts, fun info' h => ih.1 ?_⟩
        exact (h.bind_halts_iff.1 ⟨r, hr⟩)
      · rintro ⟨hhalts, hrest⟩
        refine hhalts.bind fun p hp => ?_
        match p, hp with
        | (some _, _), _ => exact Comp.halts_pure _
        | (none, info'), hp => exact ih.2 (hrest info' hp)

lemma halts_calcMain_iff {expr : List Char} :
    (calcMain ovf info expr).Halts ↔ (scan ovf expr info).Halts := by
  constructor
  · rintro ⟨r, hr⟩
    exact hr.of_bind
  · intro h
    refine h.bind fun p _ => ?_
    match p with
    | (some _, _) => exact Comp.halts_pure _
    | (none, info') => exact halts_drain info'

/-- What is read at the brackets, in front of each. -/
lemma closesBrackets_iff {expr : List Char} : ClosesBrackets ovf expr info ↔
    ∀ t u i, expr = t ++ ')' :: u → (scan ovf t info).Ends (.ok (none, i)) →
      Closes ovf i.opr i.num := by
  induction expr generalizing info with
  | nil => simp [ClosesBrackets]
  | cons c cs ih =>
      constructor
      · rintro ⟨hc, hcs⟩ t u i heq hscan
        rcases List.cons_eq_append_iff.1 heq with ⟨rfl, hclose⟩ | ⟨t, rfl, rfl⟩
        · obtain ⟨rfl, -⟩ := List.cons.inj hclose
          obtain rfl : i = info := by simpa [scan] using hscan
          exact hc rfl
        · obtain ⟨i₁, hchar, hrest⟩ := scan_cons_none.1 hscan
          exact ih.1 (hcs i₁ hchar) t u i rfl hrest
      · intro h
        refine ⟨?_, fun i₁ hchar => ih.2 fun t u i heq hscan => ?_⟩
        · rintro rfl
          exact h [] cs info rfl (Comp.ends_pure.2 rfl)
        · exact h (c :: t) u i (by simp [heq]) (scan_cons_ends hchar hscan)

/-- **When the calculator stops.**  It does exactly if, whenever a `)` is read, the
operators in front of it find their numbers. -/
theorem calcMain_halts_iff (ovf : ℤ → Except Fault CInt) (expr : List Char) :
    (calcMain ovf calcInit expr).Halts ↔ ClosesBrackets ovf expr calcInit := by
  rw [halts_calcMain_iff, halts_scan_iff]

/-- `1+)` makes it run forever. -/
theorem calcMain_runs_forever :
    ¬ (calcMain (fun _ => .error .overflow) calcInit ['1', '+', ')']).Halts := by
  rw [halts_calcMain_iff, halts_scan_iff]
  rintro ⟨-, hone⟩
  have hplus := (hone ⟨[⟨1, by decide⟩], [], .NUM⟩ ⟨0, by decide⟩).2
    ⟨[⟨1, by decide⟩], ['+'], .OPR⟩ ⟨0, by decide⟩
  exact absurd (hplus.1 rfl) (by simp [Closes])

end Calc

end DemoClass
