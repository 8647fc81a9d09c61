import DemoClass.Calc.IllFormed

/-!
# Two calls with the same `calc_info`

`calc_main` does not reset the stacks and the flag.  Behind an expression that ends in a
digit only the flag is left, and a later call notices it if it begins with a sign.  Behind
an error numbers, operators and brackets may be left as well, and nearly every later call
notices them (`calcMain_history_iff`).
-/

namespace DemoClass

namespace Calc

/-- `calc_main` returns `v` when it is called on `expr` with `info`. -/
def Returns (ovf : ℤ → Except Fault CInt) (info : CalcInfo) (expr : List Char) (v : ℤ) : Prop :=
  ∃ info', (calcMain ovf info expr).Ends (.ok (v, info'))

/-- What a call has left in its `calc_info`. -/
inductive Left
  | nothing
  | flag
  | stack
  deriving DecidableEq

def CalcInfo.left (info : CalcInfo) : Left :=
  if info.num ≠ [] ∨ info.opr ≠ [] then .stack
  else if info.flag = .NUM then .flag
  else .nothing

/-- The first character behind blanks and pairs of brackets, with `k` brackets open.  It is
`(` where a bracket stays open and nothing else comes. -/
def head : ℕ → List Char → Option Char
  | 0, [] => none
  | _ + 1, [] => some '('
  | k, c :: cs =>
    if IsBlank c then head k cs
    else if c = '(' then head (k + 1) cs
    else if c = ')' ∧ 0 < k then head (k - 1) cs
    else some c

/-- The error codes. -/
def IsCode (v : ℤ) : Prop := v = -1 ∨ v = -2 ∨ v = -3

instance (v : ℤ) : Decidable (IsCode v) := inferInstanceAs (Decidable (_ ∨ _))

/-- A string with this head does not notice what is left. -/
def Unnoticed : Left → Option Char → Prop
  | .nothing, _ => True
  | .flag, c => c ≠ some '+' ∧ c ≠ some '-'
  | .stack, c => ∃ d ∈ c, ¬ (IsDigit d ∨ IsOpr d ∨ d = ')')

variable {ovf : ℤ → Except Fault CInt} {num : List CInt} {opr s : List Char} {flag : Flag}
  {c d : Char} {k : ℕ} {v : ℤ} {info info' : CalcInfo}

lemma Returns.unique {w : ℤ} (h : Returns ovf info s v) (h' : Returns ovf info s w) : v = w := by
  obtain ⟨i, hv⟩ := h
  obtain ⟨j, hw⟩ := h'
  obtain ⟨rfl, -⟩ : v = w ∧ i = j := by simpa using hv.unique hw
  rfl

lemma returns_congr (h : Returns ovf info s v) (h' : Returns ovf info' s v) (w : ℤ) :
    Returns ovf info s w ↔ Returns ovf info' s w := by
  constructor
  · intro hw
    rwa [← h.unique hw]
  · intro hw
    rwa [← h'.unique hw]

/-! ### Characters in front of the head -/

/-- A character that does not end the run. -/
lemma returns_cons (h : (charHandle ovf c info).Ends (.ok (none, info'))) :
    Returns ovf info (c :: s) v ↔ Returns ovf info' s v := by
  have hcall : ∀ r, (calcMain ovf info (c :: s)).Ends r ↔ (calcMain ovf info' s).Ends r := by
    intro r
    rw [calcMain, scan, bind_assoc, h.bind_iff]
    exact Iff.rfl
  exact exists_congr fun _ => hcall _

/-- One that does. -/
lemma returns_of_char (h : (charHandle ovf c info).Ends (.ok (some v, info'))) :
    Returns ovf info (c :: s) v := by
  have hscan : (scan ovf (c :: s) info).Ends (.ok (some v, info')) :=
    h.bind (Comp.ends_pure.2 rfl)
  exact ⟨info', hscan.bind (Comp.ends_pure.2 rfl)⟩

lemma charHandle_open : (charHandle ovf '(' ⟨num, opr, flag⟩).Ends
    (.ok (none, ⟨num, '(' :: opr, flag⟩)) := Comp.ends_pure.2 rfl

/-- A bracket that is on top is closed. -/
lemma charHandle_closeTop : (charHandle ovf ')' ⟨num, '(' :: opr, flag⟩).Ends
    (.ok (none, ⟨num, opr, flag⟩)) :=
  charHandle_close_ends (Comp.Ends.loop_inr (Comp.ends_pure.2 rfl))

lemma head_blank (hc : IsBlank c) : head k (c :: s) = head k s := by
  simp [head, hc]

lemma head_open : head k ('(' :: s) = head (k + 1) s := by
  simp [head, IsBlank]

lemma head_close : head (k + 1) (')' :: s) = head k s := by
  simp [head, IsBlank]

lemma head_other (hblank : ¬ IsBlank c) (hopen : c ≠ '(') (hclose : c = ')' → k = 0) :
    head k (c :: s) = some c := by
  have hno : ¬ (c = ')' ∧ 0 < k) := fun h => h.2.ne' (hclose h.1)
  simp [head, hblank, hopen, hno]

/-- The blanks and the brackets in front of the head leave brackets open. -/
lemma exists_behind (ovf : ℤ → Except Fault CInt) (k : ℕ) (s : List Char) : ∃ j u,
    (∀ num opr flag v, Returns ovf ⟨num, List.replicate k '(' ++ opr, flag⟩ s v ↔
      Returns ovf ⟨num, List.replicate j '(' ++ opr, flag⟩ u v) ∧
    head k s = head j u ∧ ∀ c ∈ u.head?, ¬ IsBlank c ∧ c ≠ '(' ∧ (c = ')' → j = 0) := by
  induction s generalizing k with
  | nil => exact ⟨k, [], fun _ _ _ _ => Iff.rfl, rfl, by simp⟩
  | cons c s ih =>
      by_cases hblank : IsBlank c
      · obtain ⟨j, u, hreturns, hhead, hu⟩ := ih k
        refine ⟨j, u, ?_, (head_blank hblank).trans hhead, hu⟩
        intro num opr flag v
        have hchar : (charHandle ovf c ⟨num, List.replicate k '(' ++ opr, flag⟩).Ends
            (.ok (none, ⟨num, List.replicate k '(' ++ opr, flag⟩)) := by
          rw [charHandle_blank hblank]
          simp
        exact (returns_cons hchar).trans (hreturns num opr flag v)
      by_cases hopen : c = '('
      · subst hopen
        obtain ⟨j, u, hreturns, hhead, hu⟩ := ih (k + 1)
        refine ⟨j, u, ?_, head_open.trans hhead, hu⟩
        intro num opr flag v
        exact (returns_cons charHandle_open).trans (hreturns num opr flag v)
      by_cases hclose : c = ')' ∧ k ≠ 0
      · obtain ⟨rfl, hk⟩ := hclose
        obtain ⟨k, rfl⟩ := Nat.exists_eq_succ_of_ne_zero hk
        obtain ⟨j, u, hreturns, hhead, hu⟩ := ih k
        refine ⟨j, u, ?_, head_close.trans hhead, hu⟩
        intro num opr flag v
        exact (returns_cons charHandle_closeTop).trans (hreturns num opr flag v)
      · refine ⟨k, c :: s, fun _ _ _ _ => Iff.rfl, rfl, ?_⟩
        rintro d ⟨⟩
        exact ⟨hblank, hopen, by simpa using hclose⟩

/-- At an unknown character, or with a bracket that stays open, the stacks do not matter. -/
lemma returns_head (h : head 0 s = some d) (hd : ¬ (IsDigit d ∨ IsOpr d ∨ d = ')'))
    (info : CalcInfo) : Returns ovf info s (if d = '(' then -3 else -1) := by
  obtain ⟨num, opr, flag⟩ := info
  obtain ⟨j, u, hreturns, hhead, hu⟩ := exists_behind ovf 0 s
  refine (hreturns num opr flag _).2 ?_
  rw [hhead] at h
  cases u with
  | nil =>
      cases j with
      | zero => simp [head] at h
      | succ j =>
          obtain rfl : '(' = d := by simpa [head] using h
          have hloop : (Comp.loop (drainBody ovf)
              ⟨num, List.replicate (j + 1) '(' ++ opr, flag⟩).Ends
              (.ok (some (-3), ⟨num, List.replicate (j + 1) '(' ++ opr, flag⟩)) :=
            Comp.Ends.loop_inr (Comp.ends_pure.2 rfl)
          exact ⟨_, hloop.bind (Comp.ends_pure.2 rfl)⟩
  | cons c u =>
      obtain ⟨hblank, hopen, hclose⟩ := hu c rfl
      rw [head_other hblank hopen hclose] at h
      obtain rfl : c = d := by simpa using h
      have hunknown : ¬ Known c := by
        rintro (hc | hc | hc | hc | hc)
        · exact hd (Or.inl hc)
        · exact hd (Or.inr (Or.inl hc))
        · exact hblank hc
        · exact hopen hc
        · exact hd (Or.inr (Or.inr hc))
      have hchar : (charHandle ovf c ⟨num, List.replicate j '(' ++ opr, flag⟩).Ends
          (.ok (some (-1), ⟨num, List.replicate j '(' ++ opr, flag⟩)) := by
        rw [charHandle_unknown hunknown]
        simp
      rw [if_neg hopen]
      exact returns_of_char hchar

/-- A digit on an empty stack of numbers does not depend on the flag. -/
lemma numHandle_flag (hc : IsDigit c) :
    numHandle ovf c ⟨[], opr, .NUM⟩ = numHandle ovf c ⟨[], opr, .OPR⟩ := by
  simp [numHandle, toCInt_of hc.inInt]

/-- Only signs depend on it. -/
lemma charHandle_flag (hc : IsDigit c ∨ c = '*' ∨ c = '/' ∨ c = '%') :
    charHandle ovf c ⟨[], opr, .NUM⟩ = charHandle ovf c ⟨[], opr, .OPR⟩ := by
  rcases hc with hdigit | hopr
  · rw [charHandle, if_pos hdigit, charHandle, if_pos hdigit, numHandle_flag hdigit]
  · have hmul : IsOpr c := by rcases hopr with rfl | rfl | rfl <;> simp [IsOpr]
    have hsign : c ≠ '+' ∧ c ≠ '-' := by rcases hopr with rfl | rfl | rfl <;> decide
    rw [charHandle_opr hmul, charHandle_opr hmul, oprHandle_of_binary (Or.inl rfl),
      oprHandle_of_binary (Or.inr hsign)]

lemma returns_of_eq (h : charHandle ovf c info = charHandle ovf c info') (v : ℤ) :
    Returns ovf info (c :: s) v ↔ Returns ovf info' (c :: s) v := by
  rw [Returns, Returns, calcMain, calcMain, scan, scan, h]

lemma charHandle_unmatched (flag : Flag) :
    (charHandle ovf ')' ⟨num, [], flag⟩).Ends (.ok (some (-1), ⟨num, [], flag⟩)) := by
  have hbody : (bracketHandleBody ovf ⟨num, [], flag⟩).Ends
      (.ok (.inr (-1, ⟨num, [], flag⟩))) := Comp.ends_pure.2 rfl
  rw [charHandle_close]
  exact hbody.loop_inr.bind (by simp)

/-- What does not begin with a sign does not depend on the flag. -/
lemma returns_flag (hplus : head 0 s ≠ some '+') (hminus : head 0 s ≠ some '-') :
    Returns ovf ⟨[], [], .NUM⟩ s v ↔ Returns ovf ⟨[], [], .OPR⟩ s v := by
  by_cases hother : ∃ d ∈ head 0 s, ¬ (IsDigit d ∨ IsOpr d ∨ d = ')')
  · obtain ⟨d, hd, hother⟩ := hother
    exact returns_congr (returns_head hd hother _) (returns_head hd hother _) v
  obtain ⟨j, u, hreturns, hhead, hu⟩ := exists_behind ovf 0 s
  refine (hreturns [] [] .NUM v).trans (Iff.trans ?_ (hreturns [] [] .OPR v).symm)
  rw [hhead] at hplus hminus hother
  cases u with
  | nil =>
      cases j with
      | zero =>
          have hzero : ∀ flag, Returns ovf ⟨[], [], flag⟩ [] 0 := fun flag => ⟨_, 1, rfl⟩
          exact returns_congr (hzero .NUM) (hzero .OPR) v
      | succ j => exact absurd ⟨'(', rfl, by decide⟩ hother
  | cons c u =>
      obtain ⟨hblank, hopen, hclose⟩ := hu c rfl
      rw [head_other hblank hopen hclose] at hplus hminus hother
      have hc : IsDigit c ∨ IsOpr c ∨ c = ')' := by
        by_contra hc
        exact hother ⟨c, rfl, hc⟩
      rcases hc with hdigit | hopr | rfl
      · exact returns_of_eq (charHandle_flag (Or.inl hdigit)) v
      · refine returns_of_eq (charHandle_flag (Or.inr ?_)) v
        rcases hopr with h | h | h | rfl | rfl
        · exact Or.inl h
        · exact Or.inr (Or.inl h)
        · exact Or.inr (Or.inr h)
        · exact absurd rfl hplus
        · exact absurd rfl hminus
      · obtain rfl := hclose rfl
        -- no bracket is open
        have hfail : ∀ flag, Returns ovf ⟨[], [], flag⟩ (')' :: u) (-1) := fun flag =>
          returns_of_char (charHandle_unmatched flag)
        exact returns_congr (hfail .NUM) (hfail .OPR) v

/-! ### What a call leaves -/

/-- A call that takes no error exit leaves the flag at most. -/
lemma left_of_not_errorExit {p : ℤ × CalcInfo} (h : (calcMain ovf calcInit s).Ends (.ok p))
    (herr : ¬ ErrorExit ovf s) :
    p.2.num = [] ∧ p.2.opr = [] ∧ (p.2.flag = .NUM ↔ EndsInDigit (core s)) := by
  obtain ⟨start, info, hscan, hloop⟩ := (errorExit_or_value h).resolve_left herr
  obtain ⟨-, m, hfollows⟩ := follows_of_scan hscan
  obtain ⟨i, hrounds, ⟨hnil, hp⟩ | ⟨-, hp⟩ | ⟨-, hp, -⟩⟩ := drainLoop_exit hloop
  · obtain rfl : info = i := by simpa using hp
    have hlags : Lags m start.flag.owed False info.num info.opr :=
      hrounds.lags (by simp) False.elim ⟨hfollows.lags.1, False.elim⟩
    have hflag : info.flag = start.flag := (hrounds.frame (by simp)).1
    -- one number at most is left, and it is returned
    have hlen : info.num.length ≤ 1 := by
      have hlen := hlags.1
      rw [hnil] at hlen
      have howed := start.flag.owed_le
      simp only [operators, List.countP_nil] at hlen
      omega
    have hdrain : (drain ovf start).Ends (.ok p) := hscan.bind_iff.1 h
    obtain ⟨q, hq, hret⟩ := Comp.ends_bind_ok_iff.1 hdrain
    obtain rfl : q = (none, info) := by simpa using hq.unique hloop
    rw [← hfollows.flag, ← hflag]
    obtain ⟨num, opr, flag⟩ := info
    obtain rfl : opr = [] := hnil
    rcases num with _ | ⟨y, _ | ⟨z, num⟩⟩
    · obtain rfl : p = (0, ⟨[], [], flag⟩) := by simpa using hret
      exact ⟨rfl, rfl, Iff.rfl⟩
    · obtain rfl : p = (y.1, ⟨[], [], flag⟩) := by simpa using hret
      exact ⟨rfl, rfl, Iff.rfl⟩
    · simp at hlen
  · simp at hp
  · simp at hp

/-! ### A sign behind a number -/

lemma oprHandle_code {p : ℤ × CalcInfo} (h : (oprHandle ovf c info).Ends (.ok p))
    (hneg : p.1 < 0) : p.1 = -1 := by
  by_cases hbinary : info.flag = .NUM ∨ c ≠ '+' ∧ c ≠ '-'
  · rw [oprHandle_of_binary hbinary, oprPush_ends_iff] at h
    obtain ⟨i, -, rfl | ⟨-, hcode, -⟩⟩ := oprLoop_exit h
    · exact absurd hneg (lt_irrefl _)
    · exact hcode
  · obtain ⟨q, hq, hzero⟩ := oprHandle_sign ovf hbinary
    obtain rfl : p = q := by simpa using h.unique hq
    exact absurd hneg (by simp [hzero])

/-- What ends the loop over the characters is an error code. -/
lemma scan_code {ret : ℤ} (h : (scan ovf s info).Ends (.ok (some ret, info'))) : ret = -1 := by
  obtain ⟨t, c, u, i, -, -, hchar⟩ := (scan_stops_iff (by simp)).1 h
  have hcode : ∀ {iret : ℤ}, (iret < 0 → iret = -1) →
      some ret = (if iret < 0 then some iret else none) → ret = -1 := by
    intro iret hiret hret
    by_cases hneg : iret < 0
    · obtain rfl : ret = iret := by simpa [hneg] using hret
      exact hiret hneg
    · simp [hneg] at hret
  rcases charHandle_cases hchar with ⟨-, hnone, -⟩ | ⟨-, iret, hret, ho⟩ | ⟨-, hp⟩ | ⟨-, hp⟩ |
      ⟨-, iret, hret, hloop⟩ | ⟨-, hp⟩
  · simp at hnone
  · exact hcode (oprHandle_code ho) hret
  · simp at hp
  · simp at hp
  · refine hcode (fun hneg => ?_) hret
    obtain ⟨j, -, ⟨-, hj⟩ | ⟨opr, -, hj⟩⟩ := bracketLoop_exit hloop
    · exact (Prod.mk.inj hj).1
    · exact absurd (Prod.mk.inj hj).1 hneg.ne
  · exact Option.some.inj (Prod.mk.inj hp).1

/-- So is what ends the second loop with a value of its own. -/
lemma drainLoop_code {ret : ℤ}
    (h : (Comp.loop (drainBody ovf) info).Ends (.ok (some ret, info'))) : IsCode ret := by
  obtain ⟨i, -, ⟨-, hp⟩ | ⟨-, hp⟩ | ⟨-, hp, -⟩⟩ := drainLoop_exit h
  · simp at hp
  · obtain ⟨rfl, -⟩ : ret = -3 ∧ info' = i := by simpa using hp
    exact Or.inr (Or.inr rfl)
  · obtain rfl : ret = -2 := by simpa using hp
    exact Or.inr (Or.inl rfl)

/-- With a number missing there is no value. -/
lemma Follows.returns_code {t : List Char} (h : Follows 1 t info) (hret : Returns ovf info s v) :
    IsCode v := by
  obtain ⟨info', hret⟩ := hret
  obtain ⟨⟨ret, i⟩, hscan, hrest⟩ := Comp.ends_bind_ok_iff.1 hret
  cases ret with
  | some ret =>
      obtain ⟨rfl, -⟩ : v = ret ∧ info' = i := by simpa using hrest
      exact Or.inl (scan_code hscan)
  | none =>
      obtain ⟨⟨ret, j⟩, hloop, hlast⟩ := Comp.ends_bind_ok_iff.1 hrest
      cases ret with
      | some ret =>
          obtain ⟨rfl, -⟩ : v = ret ∧ info' = j := by simpa using hlast
          exact drainLoop_code hloop
      | none =>
          obtain ⟨-, m, hm, hfollows⟩ := h.scan hscan
          exact absurd (le_antisymm hfollows.le hm) (hfollows.value hloop).1

/-- An operator behind nothing but brackets misses its first number. -/
lemma follows_operator (hc : IsOpr c) (k : ℕ) :
    Follows 1 (List.replicate k '(' ++ [c]) ⟨[], c :: List.replicate k '(', .OPR⟩ where
  le := le_rfl
  flag := by
    rw [hc.core_append, endsInDigit_append]
    exact iff_of_false (by simp) hc.not_digit
  brackets := by
    rw [hc.count_append.1, hc.count_append.2]
    simp [List.count_replicate, hc.ne_open]
  misused _ := rfl
  lags := by
    simp [Lags, operators_cons hc.ne_open, Flag.owed]

/-- A sign behind a number is an operator that misses its first number. -/
lemma returns_sign (hc : c = '+' ∨ c = '-') (h : head 0 s = some c)
    (hret : Returns ovf ⟨[], [], .NUM⟩ s v) : IsCode v := by
  obtain ⟨j, u, hreturns, hhead, hu⟩ := exists_behind ovf 0 s
  have hrest := (hreturns [] [] .NUM v).1 hret
  rw [hhead] at h
  cases u with
  | nil =>
      exfalso
      cases j with
      | zero => simp [head] at h
      | succ j =>
          obtain rfl : '(' = c := by simpa [head] using h
          rcases hc with hc | hc <;> simp at hc
  | cons d u =>
      obtain ⟨hblank, hopen, hclose⟩ := hu d rfl
      rw [head_other hblank hopen hclose] at h
      obtain rfl : d = c := by simpa using h
      have hopr : IsOpr d := by rcases hc with rfl | rfl <;> decide
      have hpush : (oprHandle ovf d ⟨[], List.replicate j '(', .NUM⟩).Ends
          (.ok (0, ⟨[], d :: List.replicate j '(', .OPR⟩)) := by
        rw [oprHandle_of_binary (Or.inl rfl), oprPush_ends_iff]
        refine Comp.Ends.loop_inr ?_
        have hlevel : opr2level '(' < opr2level d := hopr.level_pos
        cases j with
        | zero => simp [oprHandleBody]
        | succ j => simp [oprHandleBody, List.replicate_succ, hlevel]
      rw [List.append_nil] at hrest
      exact (follows_operator hopr j).returns_code
        ((returns_cons (charHandle_opr_ends hopr hpush)).1 hrest)

/-! ### Pairs of calls -/

/-- Two values for one pair of calls. -/
lemma noticed {e₁ e₂ : List Char} {v₁ w : ℤ} {left : Left} {o : Option Char}
    (hall : ∀ e₁ v₁ info e₂, (calcMain ovf calcInit e₁).Ends (.ok (v₁, info)) → info.left = left →
      head 0 e₂ = o → ∀ v, Returns ovf info e₂ v ↔ Returns ovf calcInit e₂ v)
    (h : (calcMain ovf calcInit e₁).Ends (.ok (v₁, info))) (hleft : info.left = left)
    (hhead : head 0 e₂ = o) (hv : Returns ovf info e₂ v) (hw : Returns ovf calcInit e₂ w) :
    v = w :=
  Returns.unique ((hall e₁ v₁ info e₂ h hleft hhead v).1 hv) hw

/-- The state for each kind of rest. -/
lemma eq_of_left (info : CalcInfo) :
    (info.left = .nothing → info = calcInit) ∧ (info.left = .flag → info = ⟨[], [], .NUM⟩) := by
  obtain ⟨_ | ⟨y, num⟩, _ | ⟨c, opr⟩, _ | _⟩ := info <;> simp [CalcInfo.left, calcInit]

lemma head_digit (hc : IsDigit c) : head 0 [c] = some c :=
  head_other hc.not_blank hc.not_skipped.2.1 fun _ => rfl

lemma returns_nil (v : CInt) (flag : Flag) : Returns ovf ⟨[v], [], flag⟩ [] v.1 := ⟨_, 1, rfl⟩

/-- A digit goes on with a 1 that is left. -/
lemma returns_digit (hc : IsDigit c) :
    Returns ovf ⟨[⟨1, by decide⟩], [], .NUM⟩ [c] (digit c + 10) ∧
      Returns ovf calcInit [c] (digit c) := by
  have h0 := digit_nonneg hc
  have h9 := digit_le hc
  have hfits := hc.inInt
  have hsum : InInt (digit c + 10) := ⟨by omega, by omega⟩
  have hten : InInt 10 := by decide
  constructor
  · have hnum : numHandle ovf c ⟨[⟨1, by decide⟩], [], .NUM⟩ =
        pure ⟨[⟨digit c + 10, hsum⟩], [], .NUM⟩ := by
      simp [numHandle, toCInt_of hfits, toCInt_of hten, toCInt_of hsum]
    refine (returns_cons ?_).2 (returns_nil ⟨digit c + 10, hsum⟩ .NUM)
    rw [charHandle_digit hc hnum]
    simp
  · have hnum : numHandle ovf c calcInit = pure ⟨[⟨digit c, hfits⟩], [], .NUM⟩ := by
      simp [numHandle, calcInit, toCInt_of hfits]
    refine (returns_cons ?_).2 (returns_nil ⟨digit c, hfits⟩ .NUM)
    rw [charHandle_digit hc hnum]
    simp

/-- Behind `1$` a 1 is left on the stack, which the head of the next string meets. -/
lemma exists_noticed_stack (ovf : ℤ → Except Fault CInt) {o : Option Char}
    (ho : ¬ Unnoticed .stack o) : ∃ e₁ v₁ info e₂ v w,
      (calcMain ovf calcInit e₁).Ends (.ok (v₁, info)) ∧ info.left = .stack ∧ head 0 e₂ = o ∧
        Returns ovf info e₂ v ∧ Returns ovf calcInit e₂ w ∧ v ≠ w := by
  have hone : (calcMain ovf calcInit ['1', '$']).Ends (.ok (-1, ⟨[⟨1, by decide⟩], [], .NUM⟩)) :=
    ⟨1, rfl⟩
  cases o with
  | none => exact ⟨_, _, _, [], 1, 0, hone, rfl, rfl, ⟨_, 1, rfl⟩, ⟨_, 1, rfl⟩, by decide⟩
  | some c =>
      have hc : IsDigit c ∨ IsOpr c ∨ c = ')' := by
        by_contra hc
        exact ho ⟨c, rfl, hc⟩
      rcases hc with hdigit | hopr | rfl
      · exact ⟨_, _, _, [c], digit c + 10, digit c, hone, rfl, head_digit hdigit,
          (returns_digit hdigit).1, (returns_digit hdigit).2, by simp⟩
      · rcases hopr with rfl | rfl | rfl | rfl | rfl
        · exact ⟨_, _, _, ['*', '1'], 1, -2, hone, rfl, rfl, ⟨_, 3, rfl⟩, ⟨_, 3, rfl⟩, by decide⟩
        · exact ⟨_, _, _, ['/', '1'], 1, -2, hone, rfl, rfl, ⟨_, 3, rfl⟩, ⟨_, 3, rfl⟩, by decide⟩
        · exact ⟨_, _, _, ['%', '1'], 0, -2, hone, rfl, rfl, ⟨_, 3, rfl⟩, ⟨_, 3, rfl⟩, by decide⟩
        · exact ⟨_, _, _, ['+', '1'], 2, 1, hone, rfl, rfl, ⟨_, 3, rfl⟩, ⟨_, 3, rfl⟩, by decide⟩
        · exact ⟨_, _, _, ['-', '1'], 0, -1, hone, rfl, rfl, ⟨_, 3, rfl⟩, ⟨_, 3, rfl⟩, by decide⟩
      · exact ⟨['(', '$'], -1, ⟨[], ['('], .OPR⟩, [')'], 0, -1, ⟨1, rfl⟩, rfl, rfl, ⟨_, 3, rfl⟩,
          ⟨_, 3, rfl⟩, by decide⟩

/-- Behind the flag alone an error code is the only value of a string that begins with a
sign. -/
lemma unnoticed_iff_of_flag {e₂ : List Char} {w : ℤ} (hw : Returns ovf calcInit e₂ w)
    (hcode : ¬ IsCode w) : (∀ v, Returns ovf ⟨[], [], .NUM⟩ e₂ v ↔ Returns ovf calcInit e₂ v) ↔
      Unnoticed .flag (head 0 e₂) := by
  constructor
  · intro hsame
    have hsecond := (hsame w).2 hw
    constructor
    · intro hplus
      exact hcode (returns_sign (Or.inl rfl) hplus hsecond)
    · intro hminus
      exact hcode (returns_sign (Or.inr rfl) hminus hsecond)
  · rintro ⟨hplus, hminus⟩ v
    exact returns_flag hplus hminus

/-- What is left and the head of the next string decide. -/
lemma unnoticed_iff (ovf : ℤ → Except Fault CInt) (left : Left) (o : Option Char) :
    (∀ e₁ v₁ info e₂, (calcMain ovf calcInit e₁).Ends (.ok (v₁, info)) → info.left = left →
      head 0 e₂ = o → ∀ v, Returns ovf info e₂ v ↔ Returns ovf calcInit e₂ v) ↔
      Unnoticed left o := by
  constructor
  · intro hall
    by_contra ho
    cases left with
    | nothing => exact ho trivial
    | flag =>
        have hone : (calcMain ovf calcInit ['1']).Ends (.ok (1, ⟨[], [], .NUM⟩)) := ⟨1, rfl⟩
        rw [Unnoticed, not_and_or, not_not, not_not] at ho
        rcases ho with rfl | rfl
        · have hplus : Returns ovf ⟨[], [], .NUM⟩ ['+', '1'] (-2) := ⟨_, 3, rfl⟩
          have hsame := noticed hall hone rfl rfl hplus ⟨_, 3, rfl⟩
          exact absurd hsame (show (-2 : ℤ) ≠ 1 by decide)
        · have hminus : Returns ovf ⟨[], [], .NUM⟩ ['-', '1'] (-2) := ⟨_, 3, rfl⟩
          have hsame := noticed hall hone rfl rfl hminus ⟨_, 3, rfl⟩
          exact absurd hsame (show (-2 : ℤ) ≠ -1 by decide)
    | stack =>
        obtain ⟨e₁, v₁, info, e₂, v, w, h, hleft, hhead, hv, hw, hne⟩ := exists_noticed_stack ovf ho
        exact hne (noticed hall h hleft hhead hv hw)
  · rintro h e₁ v₁ info e₂ - hleft hhead v
    cases left with
    | nothing => rw [(eq_of_left info).1 hleft]
    | flag =>
        rw [(eq_of_left info).2 hleft]
        subst hhead
        exact returns_flag h.1 h.2
    | stack =>
        obtain ⟨d, hd, hother⟩ := h
        have hsame : ∀ info, Returns ovf info e₂ (if d = '(' then -3 else -1) :=
          returns_head (hhead.trans hd) hother
        exact returns_congr (hsame info) (hsame calcInit) v

/-- A string with a value is loose and has no division by zero that shows. -/
lemma not_zeroShows_of_value (hscan : (scan ovf s calcInit).Ends (.ok (none, info)))
    (hdrain : (Comp.loop (drainBody ovf) info).Ends (.ok (none, info')))
    (hv : Returns ovf calcInit s v) : Loose s ∧ ¬ ZeroShows ovf s := by
  have hloose := loose_of_value hscan hdrain
  refine ⟨hloose, fun hzero => ?_⟩
  obtain ⟨i, hends⟩ := hv
  have herr : ErrorExit ovf s :=
    (errorExit_iff_zeroShows hloose (returns_iff.1 ⟨_, hends⟩)).2 hzero
  obtain ⟨ret, j, hsome | ⟨start, hnone, hloop⟩⟩ := herr
  · simpa using hscan.unique hsome
  · obtain rfl : info = start := by simpa using hscan.unique hnone
    simpa using hdrain.unique hloop

end Calc

end DemoClass
