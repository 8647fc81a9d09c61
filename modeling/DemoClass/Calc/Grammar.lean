import DemoClass.Calc.Machine

/-!
# Arithmetic expressions

The grammar that the calculator is meant for, with the usual precedence and left
associativity, and the value of an expression in C.  Blanks may stand on both sides of
every part, but not inside a literal.
-/

namespace DemoClass

namespace Calc

/-- An expression. -/
inductive Expr
  | lit (ds : List Char)
  | bin (c : Char) (a b : Expr)

/-- The nonterminals `expr`, `term` and `factor`. -/
inductive Level
  | expr
  | term
  | factor

/-- Reading the digits `ds` behind a number `n`. -/
def readDigits (n : ℤ) (ds : List Char) : ℤ := ds.foldl (fun n d => n * 10 + digit d) n

/-- The value of an operation, with the division of C, which truncates. -/
def opValue (c : Char) (a b : ℤ) : ℤ :=
  if c = '+' then a + b
  else if c = '-' then a - b
  else if c = '*' then a * b
  else if c = '/' then a.tdiv b
  else a.tmod b

/-- The value of an expression. -/
def Expr.value : Expr → ℤ
  | .lit ds => readDigits 0 ds
  | .bin c a b => opValue c a.value b.value

/-- Every literal and every intermediate result fits into an `int`, and nothing is divided
by zero. -/
def Expr.Fits : Expr → Prop
  | .lit ds => InInt (readDigits 0 ds)
  | .bin c a b => a.Fits ∧ b.Fits ∧ InInt (opValue c a.value b.value) ∧
      (c = '/' ∨ c = '%' → b.value ≠ 0)

/-- The quotient that belongs to a remainder fits into an `int`, too. -/
def Expr.QuotFits : Expr → Prop
  | .lit _ => True
  | .bin c a b => a.QuotFits ∧ b.QuotFits ∧ (c = '%' → InInt (a.value.tdiv b.value))

instance Expr.decidableFits : (e : Expr) → Decidable e.Fits
  | .lit ds => inferInstanceAs (Decidable (InInt (readDigits 0 ds)))
  | .bin c a b =>
    have := decidableFits a
    have := decidableFits b
    inferInstanceAs (Decidable (a.Fits ∧ b.Fits ∧ InInt (opValue c a.value b.value) ∧
      (c = '/' ∨ c = '%' → b.value ≠ 0)))

instance Expr.decidableQuotFits : (e : Expr) → Decidable e.QuotFits
  | .lit _ => inferInstanceAs (Decidable True)
  | .bin c a b =>
    have := decidableQuotFits a
    have := decidableQuotFits b
    inferInstanceAs (Decidable (a.QuotFits ∧ b.QuotFits ∧
      (c = '%' → InInt (a.value.tdiv b.value))))

/-- A blank, a tab or a newline. -/
def IsBlank (c : Char) : Prop := c = ' ' ∨ c = '\t' ∨ c = '\n'

instance (c : Char) : Decidable (IsBlank c) := inferInstanceAs (Decidable (_ ∨ _))

/-- `Parses l s e`: the string `s` is an `l` of the grammar and stands for `e`. -/
inductive Parses : Level → List Char → Expr → Prop
  | lit {ds : List Char} : ds ≠ [] → (∀ d ∈ ds, IsDigit d) → Parses .factor ds (.lit ds)
  | bracket {s : List Char} {e : Expr} : Parses .expr s e → Parses .factor ('(' :: s ++ [')']) e
  | factor {s : List Char} {e : Expr} : Parses .factor s e → Parses .term s e
  | mulOp {s t : List Char} {a b : Expr} {c : Char} : Parses .term s a →
      c = '*' ∨ c = '/' ∨ c = '%' → Parses .factor t b → Parses .term (s ++ c :: t) (.bin c a b)
  | term {s : List Char} {e : Expr} : Parses .term s e → Parses .expr s e
  | addOp {s t : List Char} {a b : Expr} {c : Char} : Parses .expr s a →
      c = '+' ∨ c = '-' → Parses .term t b → Parses .expr (s ++ c :: t) (.bin c a b)
  | blankLeft {l : Level} {s : List Char} {e : Expr} {c : Char} : IsBlank c → Parses l s e →
      Parses l (c :: s) e
  | blankRight {l : Level} {s : List Char} {e : Expr} {c : Char} : IsBlank c → Parses l s e →
      Parses l (s ++ [c]) e

lemma IsDigit.not_blank {c : Char} (h : IsDigit c) : ¬ IsBlank c := by
  rintro (rfl | rfl | rfl) <;> exact absurd h (by decide)

/-- The five operators. -/
def IsOpr (c : Char) : Prop := c = '*' ∨ c = '/' ∨ c = '%' ∨ c = '+' ∨ c = '-'

instance (c : Char) : Decidable (IsOpr c) := inferInstanceAs (Decidable (_ ∨ _))

lemma IsOpr.level_pos {c : Char} (h : IsOpr c) : 0 < opr2level c := by
  rcases h with rfl | rfl | rfl | rfl | rfl <;> decide

lemma IsOpr.not_digit {c : Char} (h : IsOpr c) : ¬ IsDigit c := by
  rcases h with rfl | rfl | rfl | rfl | rfl <;> decide

lemma IsOpr.not_blank {c : Char} (h : IsOpr c) : ¬ IsBlank c := by
  rcases h with rfl | rfl | rfl | rfl | rfl <;> decide

lemma IsOpr.ne_open {c : Char} (h : IsOpr c) : c ≠ '(' := ne_open_of_level h.level_pos

/-- An expression in which operands may have signs.  Which operator binds tighter is left
open. -/
inductive Expression : List Char → Prop
  | lit {ds : List Char} : ds ≠ [] → (∀ d ∈ ds, IsDigit d) → Expression ds
  | bracket {s : List Char} : Expression s → Expression ('(' :: s ++ [')'])
  | sign {s : List Char} {c : Char} : c = '+' ∨ c = '-' → Expression s → Expression (c :: s)
  | bin {s t : List Char} {c : Char} : Expression s → IsOpr c → Expression t →
      Expression (s ++ c :: t)
  | blankLeft {s : List Char} {c : Char} : IsBlank c → Expression s → Expression (c :: s)
  | blankRight {s : List Char} {c : Char} : IsBlank c → Expression s → Expression (s ++ [c])

/-- An expression is not empty: it has a digit. -/
lemma Expression.exists_digit {s : List Char} (h : Expression s) : ∃ d ∈ s, IsDigit d := by
  induction h with
  | @lit ds hne hds =>
      obtain ⟨d, ds, rfl⟩ := List.exists_cons_of_ne_nil hne
      exact ⟨d, by simp, hds d (by simp)⟩
  | bracket _ ih =>
      obtain ⟨d, hd, hdigit⟩ := ih
      exact ⟨d, by simp [hd], hdigit⟩
  | sign _ _ ih =>
      obtain ⟨d, hd, hdigit⟩ := ih
      exact ⟨d, by simp [hd], hdigit⟩
  | bin _ _ _ ih _ =>
      obtain ⟨d, hd, hdigit⟩ := ih
      exact ⟨d, by simp [hd], hdigit⟩
  | blankLeft _ _ ih =>
      obtain ⟨d, hd, hdigit⟩ := ih
      exact ⟨d, by simp [hd], hdigit⟩
  | blankRight _ _ ih =>
      obtain ⟨d, hd, hdigit⟩ := ih
      exact ⟨d, by simp [hd], hdigit⟩

/-! ### Literals -/

lemma digit_nonneg {d : Char} (h : IsDigit d) : 0 ≤ digit d := by
  have := h.1
  simp only [digit]
  omega

lemma digit_le {d : Char} (h : IsDigit d) : digit d ≤ 9 := by
  have h9 := h.2
  have h0 : '0'.toNat = 48 := rfl
  have h9' : '9'.toNat = 57 := rfl
  simp only [digit]
  omega

lemma IsDigit.inInt {d : Char} (h : IsDigit d) : InInt (digit d) := by
  have h0 := digit_nonneg h
  have h9 := digit_le h
  exact ⟨by omega, by omega⟩

/-- Reading on only makes a number larger. -/
lemma le_readDigits {n : ℤ} (hn : 0 ≤ n) {ds : List Char} (h : ∀ d ∈ ds, IsDigit d) :
    n ≤ readDigits n ds := by
  induction ds generalizing n with
  | nil => exact le_rfl
  | cons d ds ih =>
      have hd := digit_nonneg (h d (by simp))
      have hstep := ih (n := n * 10 + digit d) (by omega) fun d' hd' => h d' (by simp [hd'])
      show n ≤ readDigits (n * 10 + digit d) ds
      omega

end Calc

end DemoClass
