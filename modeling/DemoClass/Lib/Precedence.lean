import Mathlib.Data.Nat.Basic
import Mathlib.Tactic.Common

/-!
# Operators that wait

While an expression is read from left to right, an operator waits with its left operand
until its right operand is complete.  An operator behind that operand first applies all
operators that bind at least as tight, `reduce`.  Brackets are in the way of it.

Operators of a low level may be applied later than they are due, on the result of tighter
ones, when they commute with these (`Delays`).  `Delayed` relates the frames with and
without such operators.
-/

namespace DemoClass

namespace Precedence

/-- An operator with its left operand, or an opening bracket. -/
inductive Frame (α κ : Type)
  | op (a : α) (c : κ)
  | bracket

variable {α κ : Type} (level : κ → ℕ) (eval : κ → α → α → α)

/-- Apply the operators of at least the level `n`, up to a bracket. -/
def reduce (n : ℕ) : α → List (Frame α κ) → α × List (Frame α κ)
  | v, [] => (v, [])
  | v, .bracket :: F => (v, .bracket :: F)
  | v, .op a c :: F => if n ≤ level c then reduce n (eval c a v) F else (v, .op a c :: F)

/-- The operator on top, if there is one, is below the level `n`. -/
def Stops (n : ℕ) (F : List (Frame α κ)) : Prop :=
  ∀ f ∈ F.head?, ∀ a c, f = .op a c → level c < n

/-- The number of opening brackets. -/
def opens : List (Frame α κ) → ℕ
  | [] => 0
  | .bracket :: F => opens F + 1
  | .op _ _ :: F => opens F

variable {level eval} {n : ℕ} {v w : α} {F G M A B : List (Frame α κ)}

lemma reduce_of_stops (h : Stops level n F) : reduce level eval n v F = (v, F) := by
  match F with
  | [] => rfl
  | .bracket :: F => rfl
  | .op a c :: F =>
      have hlt : level c < n := h _ rfl a c rfl
      exact if_neg (not_le.2 hlt)

lemma stops_reduce (n : ℕ) (v : α) (F : List (Frame α κ)) :
    Stops level n (reduce level eval n v F).2 := by
  induction F generalizing v with
  | nil => rintro f ⟨⟩
  | cons f F ih =>
      cases f with
      | bracket =>
          rintro f ⟨⟩ a c hf
          exact absurd hf (by simp)
      | op a c =>
          by_cases hn : n ≤ level c
          · simpa only [reduce, if_pos hn] using ih (eval c a v)
          · simp only [reduce, if_neg hn]
            rintro f ⟨⟩ a' c' hf
            obtain ⟨-, rfl⟩ : a = a' ∧ c = c' := by simpa using hf
            exact not_le.1 hn

lemma reduce_append_nil (h : reduce level eval n v G = (w, [])) (F : List (Frame α κ)) :
    reduce level eval n v (G ++ F) = reduce level eval n w F := by
  induction G generalizing v with
  | nil =>
      obtain rfl : v = w := by simpa [reduce] using h
      rfl
  | cons f G ih =>
      cases f with
      | bracket => simp [reduce] at h
      | op a c =>
          by_cases hn : n ≤ level c
          · simp only [reduce, if_pos hn] at h
            simpa only [List.cons_append, reduce, if_pos hn] using ih h
          · simp [reduce, if_neg hn] at h

lemma reduce_append_ne (h : reduce level eval n v G = (w, A)) (hne : A ≠ [])
    (F : List (Frame α κ)) : reduce level eval n v (G ++ F) = (w, A ++ F) := by
  induction G generalizing v with
  | nil =>
      obtain ⟨-, rfl⟩ : v = w ∧ [] = A := by simpa [reduce] using h
      exact absurd rfl hne
  | cons f G ih =>
      cases f with
      | bracket =>
          obtain ⟨rfl, rfl⟩ : v = w ∧ .bracket :: G = A := by simpa [reduce] using h
          rfl
      | op a c =>
          by_cases hn : n ≤ level c
          · simp only [reduce, if_pos hn] at h
            simpa only [List.cons_append, reduce, if_pos hn] using ih h
          · obtain ⟨rfl, rfl⟩ : v = w ∧ .op a c :: G = A := by simpa [reduce, hn] using h
            simp [reduce, hn]

/-- What is below a bracket does not matter. -/
lemma reduce_append_bracket (h : reduce level eval n v G = (w, A)) (F : List (Frame α κ)) :
    reduce level eval n v (G ++ .bracket :: F) = (w, A ++ .bracket :: F) := by
  by_cases hne : A = []
  · subst hne
    rw [reduce_append_nil h]
    rfl
  · exact reduce_append_ne h hne _

lemma opens_reduce (n : ℕ) (v : α) (F : List (Frame α κ)) :
    opens (reduce level eval n v F).2 = opens F := by
  induction F generalizing v with
  | nil => rfl
  | cons f F ih =>
      cases f with
      | bracket => rfl
      | op a c =>
          by_cases hn : n ≤ level c
          · simpa only [reduce, if_pos hn, opens] using ih (eval c a v)
          · simp only [reduce, if_neg hn]

/-- From the level 0 on only a bracket stops. -/
lemma reduce_zero (v : α) (F : List (Frame α κ)) :
    (∃ w, opens F = 0 ∧ reduce level eval 0 v F = (w, [])) ∨
      ∃ w G, opens F = opens G + 1 ∧ reduce level eval 0 v F = (w, .bracket :: G) := by
  induction F generalizing v with
  | nil => exact Or.inl ⟨v, rfl, rfl⟩
  | cons f F ih =>
      cases f with
      | bracket => exact Or.inr ⟨v, F, rfl, rfl⟩
      | op a c => simpa [reduce, opens] using ih (eval c a v)

/-! ### Delayed operators -/

/-- The operators of `M`, all below the level `h`, apply `φ`, and it does not matter
whether an operator from this level on is applied before or after. -/
structure Delays (level : κ → ℕ) (eval : κ → α → α → α) (h : ℕ) (M : List (Frame α κ))
    (φ : α → α) : Prop where
  low : ∀ n < h, ∀ v, reduce level eval n v M = (φ v, [])
  high : Stops level h M
  comm : ∀ c, h ≤ level c → ∀ v w, eval c (φ v) w = φ (eval c v w)

/-- The frames with and without the delayed operators: above them an operator waits that
has been applied to the left operand before them. -/
inductive Delayed (level : κ → ℕ) (h : ℕ) (M F : List (Frame α κ)) (φ : α → α) :
    List (Frame α κ) → List (Frame α κ) → Prop
  | refl (A : List (Frame α κ)) : Delayed level h M F φ A A
  | below (G : List (Frame α κ)) (y : α) {c : κ} : h ≤ level c →
      Delayed level h M F φ (G ++ .op y c :: (M ++ F)) (G ++ .op (φ y) c :: F)

variable {h : ℕ} {φ : α → α}

lemma Delayed.cons (hd : Delayed level h M F φ A B) (f : Frame α κ) :
    Delayed level h M F φ (f :: A) (f :: B) := by
  cases hd with
  | refl A => exact .refl _
  | below G y hc => exact .below (f :: G) y hc

lemma Delayed.of_bracket (hd : Delayed level h M F φ (.bracket :: A) B) :
    ∃ B', B = .bracket :: B' ∧ Delayed level h M F φ A B' := by
  generalize hA : Frame.bracket :: A = A' at hd
  cases hd with
  | refl _ => exact ⟨A, hA.symm, .refl _⟩
  | below G y hc =>
      match G, hA with
      | f :: G, hA =>
          obtain ⟨rfl, rfl⟩ := List.cons.inj hA
          exact ⟨_, rfl, .below G y hc⟩

lemma Delayed.of_nil (hd : Delayed level h M F φ [] B) : B = [] := by
  generalize hA : ([] : List (Frame α κ)) = A' at hd
  cases hd with
  | refl _ => rfl
  | below G y hc => simp at hA

/-- Below the level of the operators that may be delayed they are caught up with. -/
lemma Delays.reduce_lt (hM : Delays level eval h M φ) (hn : n < h) (v : α)
    (F : List (Frame α κ)) : reduce level eval n v (M ++ F) = reduce level eval n (φ v) F :=
  reduce_append_nil (hM.low n hn v) F

lemma Stops.append (hM : Stops level n M) (hF : Stops level n F) : Stops level n (M ++ F) := by
  match M with
  | [] => exact hF
  | _ :: _ => exact hM

/-- Applying operators to the same operand leads to the same value, or to values that
differ by the delayed operators. -/
lemma Delayed.reduce (hM : Delays level eval h M φ) (hF : Stops level h F) (hn : n ≤ h)
    (hd : Delayed level h M F φ A B) (v : α) :
    (∃ w A' B', Precedence.reduce level eval n v A = (w, A') ∧
      Precedence.reduce level eval n v B = (w, B') ∧ Delayed level h M F φ A' B') ∨
    n = h ∧ ∃ w, Precedence.reduce level eval n v A = (w, M ++ F) ∧
      Precedence.reduce level eval n v B = (φ w, F) := by
  cases hd with
  | refl A => exact Or.inl ⟨_, _, _, rfl, rfl, .refl _⟩
  | @below G y c hc =>
      rcases hG : Precedence.reduce level eval n v G with ⟨w, G'⟩
      by_cases hne : G' = []
      · subst hne
        rw [reduce_append_nil hG, reduce_append_nil hG]
        -- the operator that has been applied too early on one side is applied now on the other
        simp only [Precedence.reduce, if_pos (Nat.le_trans hn hc), hM.comm c hc]
        rcases Nat.lt_or_eq_of_le hn with hlt | rfl
        · rw [hM.reduce_lt hlt]
          exact Or.inl ⟨_, _, _, rfl, rfl, .refl _⟩
        · rw [reduce_of_stops (hM.high.append hF), reduce_of_stops hF]
          exact Or.inr ⟨rfl, _, rfl, rfl⟩
      · rw [reduce_append_ne hG hne, reduce_append_ne hG hne]
        exact Or.inl ⟨w, _, _, rfl, rfl, .below G' y hc⟩

end Precedence

end DemoClass
