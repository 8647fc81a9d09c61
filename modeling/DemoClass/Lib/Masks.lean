import Mathlib.Logic.Basic
import Mathlib.Tactic.Common

/-!
# Updates of a word by masks

`&=` and `|=` with constants keep some bits of a word and set others.  Such updates
compose to one update of the same form (`Mask.apply_andThen`).  A field of the word is a
mask too: an update that keeps no bit of a field forces its value (`Mask.apply_and_eq`),
and one that sets none leaves it alone on exactly the words that have no bit of the field
to lose (`Mask.apply_and_eq_iff`).
-/

namespace DemoClass

variable {w : ℕ}

/-- Keep the bits of `keep`, then set those of `set`. -/
structure Mask (w : ℕ) where
  keep : BitVec w
  set : BitVec w
deriving DecidableEq, Repr

namespace Mask

def apply (m : Mask w) (x : BitVec w) : BitVec w := (x &&& m.keep) ||| m.set

/-- `x` -/
def skip : Mask w := ⟨BitVec.allOnes w, 0⟩

/-- `x &= b` -/
def only (b : BitVec w) : Mask w := ⟨b, 0⟩

/-- `x &= ~b` -/
def clear (b : BitVec w) : Mask w := ⟨~~~b, 0⟩

/-- `x |= b` -/
def put (b : BitVec w) : Mask w := ⟨~~~b, b⟩

/-- First `m`, then `n`. -/
def andThen (m n : Mask w) : Mask w := ⟨m.keep &&& n.keep, (m.set &&& n.keep) ||| n.set⟩

variable (m n : Mask w) (b x f : BitVec w)

@[simp] lemma apply_skip : skip.apply x = x := by simp [apply, skip]

@[simp] lemma apply_only : (only b).apply x = x &&& b := by simp [apply, only]

@[simp] lemma apply_clear : (clear b).apply x = x &&& ~~~b := by simp [apply, clear]

@[simp] lemma apply_put : (put b).apply x = x ||| b := by
  ext i hi
  simp only [apply, put, BitVec.getElem_or, BitVec.getElem_and, BitVec.getElem_not]
  cases b[i] <;> simp

lemma apply_andThen : (m.andThen n).apply x = n.apply (m.apply x) := by
  simp only [apply, andThen, BitVec.and_or_distrib_right, BitVec.and_assoc, BitVec.or_assoc]

lemma apply_and : m.apply x &&& f = (x &&& (m.keep &&& f)) ||| (m.set &&& f) := by
  rw [apply, BitVec.and_or_distrib_right, BitVec.and_assoc]

variable {m f}

/-- A field of which no bit is kept gets a fixed value. -/
lemma apply_and_eq (h : m.keep &&& f = 0) (x : BitVec w) : m.apply x &&& f = m.set &&& f := by
  simp [apply_and, h]

/-- A field of which no bit is set keeps its value when it has no bit to lose. -/
lemma apply_and_eq_iff (h : m.set &&& f = 0) (x : BitVec w) :
    m.apply x &&& f = x &&& f ↔ x &&& (f &&& ~~~m.keep) = 0 := by
  have hor : m.apply x &&& f = x &&& (m.keep &&& f) := by simp [apply_and, h]
  rw [hor]
  constructor
  · intro he
    ext i hi
    have hbit := congrArg (fun v => v[i]) he
    simp only [BitVec.getElem_and, BitVec.getElem_not] at hbit ⊢
    cases hk : m.keep[i] <;> simp_all
  · intro he
    ext i hi
    have hbit := congrArg (fun v => v[i]) he
    simp only [BitVec.getElem_and, BitVec.getElem_not] at hbit ⊢
    cases hk : m.keep[i] <;> simp_all

end Mask

end DemoClass
