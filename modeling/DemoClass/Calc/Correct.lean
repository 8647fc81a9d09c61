import DemoClass.Calc.Grammar

/-!
# The calculator computes the value of an expression

While an expression is read, the operators that may still be followed by one that binds
tighter wait on the operator stack.  `Pending k N O v num opr` says that the stacks
`num` and `opr` hold a value `v` on top of `N` and `O`, some of it still waiting to be
computed by operators of at least the level `k`.  `scan_parses` is the induction over
the grammar.
-/

namespace DemoClass

namespace Calc

variable {ovf : ℤ → Except Fault CInt}

/-- The stacks `num` and `opr` become `v :: N` and `O` when the waiting operators, all of
at least the level `k`, are applied. -/
inductive Pending (ovf : ℤ → Except Fault CInt) :
    ℕ → List CInt → List Char → CInt → List CInt → List Char → Prop
  | done {k : ℕ} {N : List CInt} {O : List Char} {v : CInt} : Pending ovf k N O v (v :: N) O
  | op {k : ℕ} {N num : List CInt} {O opr : List Char} {a b v : CInt} {c : Char} :
      k ≤ opr2level c → apply ovf c a b = pure (some v) →
      Pending ovf (opr2level c + 1) (a :: N) (c :: O) b num opr → Pending ovf k N O v num opr

/-- The level of the operator on top of the stack. -/
def topLevel : List Char → ℕ
  | [] => 0
  | c :: _ => opr2level c

/-- The least level of the operators that can wait inside of a nonterminal. -/
def Level.least : Level → ℕ
  | .expr => 1
  | .term => 2
  | .factor => 3

variable {N num : List CInt} {O opr : List Char} {v : CInt} {k : ℕ}

namespace Pending

lemma mono {j : ℕ} (h : Pending ovf k N O v num opr) (hjk : j ≤ k) :
    Pending ovf j N O v num opr := by
  cases h with
  | done => exact .done
  | op hk happly hp => exact .op (hjk.trans hk) happly hp

/-- A loop that applies the operators of at least the level `k` computes the value. -/
lemma loop_ends {ρ : Type} {body : CalcInfo → Comp Fault (CalcInfo ⊕ ρ)} {flag : Flag}
    {r : Except Fault ρ} {j : ℕ}
    (hbody : ∀ {N O c a b v}, j ≤ opr2level c → apply ovf c a b = pure (some v) →
      (body ⟨b :: a :: N, c :: O, flag⟩).Ends (.ok (.inl ⟨v :: N, O, flag⟩)))
    (h : Pending ovf k N O v num opr) (hjk : j ≤ k)
    (hr : (Comp.loop body ⟨v :: N, O, flag⟩).Ends r) :
    (Comp.loop body ⟨num, opr, flag⟩).Ends r := by
  induction h with
  | done => exact hr
  | op hk happly _ ih =>
      have hj := hjk.trans hk
      exact ih (hj.trans (Nat.le_succ _)) ((hbody hj happly).loop_inl hr)

end Pending

/-- Operators in whose operands and results nothing overflows or traps. -/
lemma apply_eq {c : Char} {a b : CInt} (h : InInt (opValue c a.1 b.1))
    (hc : c = '*' ∨ c = '/' ∨ c = '%' ∨ c = '+' ∨ c = '-')
    (hzero : c = '/' ∨ c = '%' → b.1 ≠ 0) (hquot : c = '%' → InInt (a.1.tdiv b.1)) :
    apply ovf c a b = pure (some ⟨opValue c a.1 b.1, h⟩) := by
  rcases hc with rfl | rfl | rfl | rfl | rfl
  · have h' : InInt (a.1 * b.1) := h
    simp [apply, opValue, toCInt_of h']
  · have h' : InInt (a.1.tdiv b.1) := h
    simp [apply, opValue, toCInt_of h', h', hzero]
  · have h' : InInt (a.1.tmod b.1) := h
    simp [apply, opValue, toCInt_of h', hzero, hquot]
  · have h' : InInt (a.1 + b.1) := h
    simp [apply, opValue, toCInt_of h']
  · have h' : InInt (a.1 - b.1) := h
    simp [apply, opValue, toCInt_of h']

/-! ### Operators and brackets -/

/-- An operator behind a value computes everything that binds at least as tight. -/
lemma oprHandle_ends {c : Char} (h : Pending ovf k N O v num opr) (hk : opr2level c ≤ k)
    (hO : topLevel O < opr2level c) :
    (oprHandle ovf c ⟨num, opr, .NUM⟩).Ends (.ok (0, ⟨v :: N, c :: O, .OPR⟩)) := by
  refine oprPush_ends_iff.2 (h.loop_ends (j := opr2level c) ?_ hk ?_)
  · intro N O c' a b v hle happly
    have hnot : ¬ opr2level c' < opr2level c := not_lt.2 hle
    simp [oprHandleBody, hnot, doStack_eq happly]
  · refine Comp.Ends.loop_inr ?_
    rcases O with _ | ⟨top_c, O⟩
    · simp [oprHandleBody]
    · have hlt : opr2level top_c < opr2level c := hO
      simp [oprHandleBody, hlt]

/-- A closing bracket computes everything up to the opening one. -/
lemma bracketLoop_ends {flag : Flag} (h : Pending ovf 1 N ('(' :: O) v num opr) :
    (Comp.loop (bracketHandleBody ovf) ⟨num, opr, flag⟩).Ends (.ok (0, ⟨v :: N, O, flag⟩)) := by
  refine h.loop_ends (j := 1) ?_ le_rfl (Comp.Ends.loop_inr (by simp [bracketHandleBody]))
  intro N O c a b v hle happly
  rw [bracketHandleBody_of_ne (ne_open_of_level hle), doStack_eq happly]
  simp

/-- The end of the string computes everything. -/
lemma drain_ends {flag : Flag} (h : Pending ovf 1 [] [] v num opr) :
    (drain ovf ⟨num, opr, flag⟩).Ends (.ok (v.1, ⟨[], [], flag⟩)) := by
  have hloop : (Comp.loop (drainBody ovf) ⟨num, opr, flag⟩).Ends
      (.ok (none, ⟨[v], [], flag⟩)) := by
    refine h.loop_ends (j := 1) ?_ le_rfl (Comp.Ends.loop_inr (by simp [drainBody]))
    intro N O c a b v hle happly
    rw [drainBody_of_ne (ne_open_of_level hle), doStack_eq happly]
    simp
  exact hloop.bind (by simp)

/-! ### Characters -/

lemma scan_append_ends {s t : List Char} {info info' : CalcInfo}
    {r : Except Fault (Option ℤ × CalcInfo)} (h : (scan ovf s info).Ends (.ok (none, info')))
    (hr : (scan ovf t info').Ends r) : (scan ovf (s ++ t) info).Ends r := by
  induction s generalizing info with
  | nil =>
      obtain rfl : info' = info := by simpa [scan] using h
      exact hr
  | cons c s ih =>
      obtain ⟨i, hchar, hrest⟩ := scan_cons_none.1 h
      exact scan_cons_ends hchar (ih hrest)

lemma charHandle_blank {c : Char} (hc : IsBlank c) (info : CalcInfo) :
    charHandle ovf c info = pure (none, info) := by
  rcases hc with rfl | rfl | rfl <;> rfl

lemma charHandle_close_ends {info info' : CalcInfo}
    (h : (Comp.loop (bracketHandleBody ovf) info).Ends (.ok (0, info'))) :
    (charHandle ovf ')' info).Ends (.ok (none, info')) := by
  rw [charHandle_close]
  exact h.bind (by simp)

/-- Reading on a literal. -/
lemma scan_digits {ds : List Char} (hds : ∀ d ∈ ds, IsDigit d) :
    ∀ {p : CInt}, 0 ≤ p.1 → ∀ hfit : InInt (readDigits p.1 ds),
      scan ovf ds ⟨p :: N, O, .NUM⟩ = pure (none, ⟨⟨readDigits p.1 ds, hfit⟩ :: N, O, .NUM⟩) := by
  induction ds with
  | nil =>
      intro p _ _
      rfl
  | cons d ds ih =>
      intro p hp hfit
      have hd := hds d (by simp)
      have hds' : ∀ d' ∈ ds, IsDigit d' := fun d' hd' => hds d' (by simp [hd'])
      have h0 := digit_nonneg hd
      have hdigit := hd.inInt
      have hle : p.1 * 10 + digit d ≤ readDigits (p.1 * 10 + digit d) ds :=
        le_readDigits (by omega) hds'
      have hmax : readDigits (p.1 * 10 + digit d) ds ≤ 2147483647 := hfit.2
      have hten : InInt (p.1 * 10) := ⟨by omega, by omega⟩
      have hnext : InInt (p.1 * 10 + digit d) := ⟨by omega, by omega⟩
      have hsum : InInt (digit d + p.1 * 10) := by rwa [Int.add_comm]
      have hcomm : (⟨digit d + p.1 * 10, hsum⟩ : CInt) = ⟨p.1 * 10 + digit d, hnext⟩ :=
        Subtype.ext (Int.add_comm _ _)
      have hnum : numHandle ovf d ⟨p :: N, O, .NUM⟩ =
          pure ⟨⟨p.1 * 10 + digit d, hnext⟩ :: N, O, .NUM⟩ := by
        simp [numHandle, toCInt_of hdigit, toCInt_of hten, toCInt_of hsum, hcomm]
      rw [scan, charHandle_digit hd hnum, pure_bind]
      exact ih hds' (by dsimp only; omega) hfit

/-- Reading a literal. -/
lemma scan_lit {ds : List Char} (hne : ds ≠ []) (hds : ∀ d ∈ ds, IsDigit d)
    (hfit : InInt (readDigits 0 ds)) :
    scan ovf ds ⟨N, O, .OPR⟩ = pure (none, ⟨⟨readDigits 0 ds, hfit⟩ :: N, O, .NUM⟩) := by
  match ds, hne with
  | d :: ds, _ =>
      have hd := hds d (by simp)
      have h0 := digit_nonneg hd
      have hdigit := hd.inInt
      have hstart : readDigits 0 (d :: ds) = readDigits (digit d) ds := by simp [readDigits]
      have hnum : numHandle ovf d ⟨N, O, .OPR⟩ = pure ⟨⟨digit d, hdigit⟩ :: N, O, .NUM⟩ := by
        simp [numHandle, toCInt_of hdigit]
      have hfit' : InInt (readDigits (digit d) ds) := hstart ▸ hfit
      have hrest : scan ovf ds ⟨⟨digit d, hdigit⟩ :: N, O, .NUM⟩ =
          pure (none, ⟨⟨readDigits (digit d) ds, hfit'⟩ :: N, O, .NUM⟩) :=
        scan_digits (fun d' hd' => hds d' (by simp [hd'])) h0 hfit'
      rw [scan, charHandle_digit hd hnum, pure_bind]
      simp only [hstart]
      exact hrest

/-! ### The induction over the grammar -/

/-- Reading `s` as an `l` leaves the value of `e` on top of the stacks, up to the operators
that may still wait. -/
def Reads (ovf : ℤ → Except Fault CInt) (l : Level) (s : List Char) (e : Expr) : Prop :=
  ∀ N O, topLevel O < l.least → ∃ v num opr, v.1 = e.value ∧
    (scan ovf s ⟨N, O, .OPR⟩).Ends (.ok (none, ⟨num, opr, .NUM⟩)) ∧
    Pending ovf l.least N O v num opr

/-- What is read as an `m`, with fewer operators that may wait, is read as an `l`. -/
lemma Reads.mono {l m : Level} {s : List Char} {e : Expr} (h : Reads ovf m s e)
    (hlm : l.least ≤ m.least) : Reads ovf l s e := by
  intro N O hO
  obtain ⟨v, num, opr, hv, hscan, hp⟩ := h N O (hO.trans_le hlm)
  exact ⟨v, num, opr, hv, hscan, hp.mono hlm⟩

/-- An operator waits for its right operand, in which only operators of a higher level
do. -/
lemma Reads.bin {l m : Level} {s t : List Char} {a b : Expr} {c : Char}
    (hops : c = '*' ∨ c = '/' ∨ c = '%' ∨ c = '+' ∨ c = '-') (hlevel : opr2level c = l.least)
    (hm : m.least = l.least + 1) (hfit : (Expr.bin c a b).Fits)
    (hquot : (Expr.bin c a b).QuotFits) (ha : Reads ovf l s a) (hb : Reads ovf m t b) :
    Reads ovf l (s ++ c :: t) (.bin c a b) := by
  intro N O hO
  obtain ⟨-, -, hfv, hzero⟩ := hfit
  obtain ⟨-, -, hqv⟩ := hquot
  obtain ⟨va, num, opr, hva, hscan, hp⟩ := ha N O hO
  have hopr := oprHandle_ends hp hlevel.le (hlevel ▸ hO)
  have htop : topLevel (c :: O) < m.least := by
    show opr2level c < m.least
    omega
  obtain ⟨vb, num', opr', hvb, hscan', hp'⟩ := hb (va :: N) (c :: O) htop
  rw [← hva, ← hvb] at hfv hqv
  rw [← hvb] at hzero
  have happly : apply ovf c va vb = pure (some ⟨opValue c va.1 vb.1, hfv⟩) :=
    apply_eq hfv hops hzero hqv
  have hlast : Pending ovf (opr2level c + 1) (va :: N) (c :: O) vb num' opr' := by
    rw [hlevel, ← hm]
    exact hp'
  refine ⟨⟨_, hfv⟩, num', opr', by simp [Expr.value, hva, hvb], ?_, .op hlevel.ge happly hlast⟩
  exact scan_append_ends hscan (scan_cons_ends (charHandle_opr_ends hops hopr) hscan')

lemma scan_parses {l : Level} {s : List Char} {e : Expr} (h : Parses l s e) (hfit : e.Fits)
    (hquot : e.QuotFits) : Reads ovf l s e := by
  induction h with
  | @lit ds hne hds =>
      intro N O _
      exact ⟨⟨readDigits 0 ds, hfit⟩, _, _, rfl, by rw [scan_lit hne hds hfit]; simp, .done⟩
  | @bracket s e _ ih =>
      intro N O _
      obtain ⟨v, num, opr, hv, hscan, hp⟩ := ih hfit hquot N ('(' :: O) Nat.zero_lt_one
      refine ⟨v, _, _, hv, ?_, .done⟩
      have hopen : (charHandle ovf '(' ⟨N, O, .OPR⟩).Ends (.ok (none, ⟨N, '(' :: O, .OPR⟩)) :=
        Comp.ends_pure.2 rfl
      refine scan_cons_ends hopen (scan_append_ends hscan ?_)
      exact scan_cons_ends (charHandle_close_ends (bracketLoop_ends hp)) (Comp.ends_pure.2 rfl)
  | factor _ ih => exact (ih hfit hquot).mono (Nat.le_succ 2)
  | @mulOp s t a b c _ hc _ iha ihb =>
      have hops : c = '*' ∨ c = '/' ∨ c = '%' ∨ c = '+' ∨ c = '-' := by
        rcases hc with h | h | h <;> simp [h]
      have hlevel : opr2level c = Level.least .term := if_pos hc
      exact .bin hops hlevel rfl hfit hquot (iha hfit.1 hquot.1) (ihb hfit.2.1 hquot.2.1)
  | term _ ih => exact (ih hfit hquot).mono (Nat.le_succ 1)
  | @addOp s t a b c _ hc _ iha ihb =>
      have hops : c = '*' ∨ c = '/' ∨ c = '%' ∨ c = '+' ∨ c = '-' := by
        rcases hc with h | h <;> simp [h]
      have hlevel : opr2level c = Level.least .expr := by rcases hc with rfl | rfl <;> rfl
      exact .bin hops hlevel rfl hfit hquot (iha hfit.1 hquot.1) (ihb hfit.2.1 hquot.2.1)
  | @blankLeft l s e c hc _ ih =>
      intro N O hO
      obtain ⟨v, num, opr, hv, hscan, hp⟩ := ih hfit hquot N O hO
      exact ⟨v, num, opr, hv, scan_cons_ends (by rw [charHandle_blank hc]; simp) hscan, hp⟩
  | @blankRight l s e c hc _ ih =>
      intro N O hO
      obtain ⟨v, num, opr, hv, hscan, hp⟩ := ih hfit hquot N O hO
      refine ⟨v, num, opr, hv, scan_append_ends hscan ?_, hp⟩
      exact scan_cons_ends (by rw [charHandle_blank hc]; simp) (Comp.ends_pure.2 rfl)

/-- **The calculator is correct.**  For an expression in which every result, and every
quotient that belongs to a remainder, fits into an `int` and nothing is divided by zero,
it returns the value and leaves both stacks empty. -/
theorem calcMain_correct (ovf : ℤ → Except Fault CInt) {s : List Char} {e : Expr}
    (h : Parses .expr s e) (hfit : e.Fits) (hquot : e.QuotFits) :
    (calcMain ovf calcInit s).Ends (.ok (e.value, ⟨[], [], .NUM⟩)) := by
  obtain ⟨v, num, opr, hv, hscan, hp⟩ := scan_parses h hfit hquot [] [] Nat.zero_lt_one
  rw [← hv]
  exact hscan.bind (drain_ends hp)

/-- `1 + 2*3`, with blanks. -/
theorem calcMain_correct_example :
    (calcMain (fun _ => .error .overflow) calcInit
      ['1', ' ', '+', '2', '*', '3']).Ends (.ok (Expr.value
        (.bin '+' (.lit ['1']) (.bin '*' (.lit ['2']) (.lit ['3']))), ⟨[], [], .NUM⟩)) := by
  have hlit : ∀ d, IsDigit d → Parses .factor [d] (.lit [d]) := fun d hd =>
    .lit (by simp) (by simpa using hd)
  refine calcMain_correct _ (.addOp (s := ['1', ' ']) ?_ (Or.inl rfl) ?_) (by decide) (by decide)
  · exact .blankRight (Or.inl rfl) (.term (.factor (hlit '1' (by decide))))
  · exact .mulOp (.factor (hlit '2' (by decide))) (Or.inl rfl) (hlit '3' (by decide))

/-- The expression `(0-2147483647-1)%(0-1)`. -/
def minModMinusOne : Expr :=
  .bin '%' (.bin '-' (.bin '-' (.lit ['0'])
    (.lit ['2', '1', '4', '7', '4', '8', '3', '6', '4', '7'])) (.lit ['1']))
    (.bin '-' (.lit ['0']) (.lit ['1']))

/-- The quotient of the least `int` and -1 does not fit, and the remainder traps with
it. -/
theorem minModMinusOne_traps :
    Parses .expr ['(', '0', '-', '2', '1', '4', '7', '4', '8', '3', '6', '4', '7', '-', '1', ')',
      '%', '(', '0', '-', '1', ')'] minModMinusOne ∧ minModMinusOne.Fits ∧
    ¬ ∃ info, (calcMain (fun _ => .error .overflow) calcInit ['(', '0', '-', '2', '1', '4', '7',
      '4', '8', '3', '6', '4', '7', '-', '1', ')', '%', '(', '0', '-', '1', ')']).Ends
        (.ok (minModMinusOne.value, info)) := by
  refine ⟨?_, by decide, ?_⟩
  · have hterm : ∀ ds : List Char, ds ≠ [] → (∀ d ∈ ds, IsDigit d) →
        Parses .term ds (.lit ds) := fun ds hne hds => .factor (.lit hne hds)
    have hzero := Parses.term (hterm ['0'] (by simp) (by simp [IsDigit]))
    have hone := hterm ['1'] (by simp) (by simp [IsDigit])
    have hleft := Parses.addOp (.addOp hzero (Or.inr rfl)
      (hterm ['2', '1', '4', '7', '4', '8', '3', '6', '4', '7'] (by simp) (by simp [IsDigit])))
      (Or.inr rfl) hone
    have hright := Parses.addOp hzero (Or.inr rfl) hone
    exact .term (.mulOp (.factor (.bracket hleft)) (Or.inr (Or.inr rfl)) (.bracket hright))
  · rintro ⟨info, h⟩
    have hfault : (calcMain (fun _ => .error .overflow) calcInit ['(', '0', '-', '2', '1', '4',
        '7', '4', '8', '3', '6', '4', '7', '-', '1', ')', '%', '(', '0', '-', '1', ')']).Ends
        (.error .divide) := ⟨3, by decide +kernel⟩
    exact absurd (h.unique hfault) (by simp)

end Calc

end DemoClass
