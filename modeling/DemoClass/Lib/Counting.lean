import DemoClass.Lib.Comp
import Mathlib.Data.Nat.Find

/-!
# Counting loops

The loop `for (i = 0; i < n; ++i)`, whose index overflows at `limit`.  The rule is
`forTo_ends`: an assertion about the index that every round keeps.  With too many rounds there
is the overflow (`forTo_overflow`).  A loop that only looks
for an index with some property is a scan (`scan_ends_inl`, `scan_ends_inr`).
-/

namespace DemoClass

namespace Comp

variable {ε σ ρ : Type}

/-- One round, with the index and the state.  The body may leave the loop. -/
def forToBody (limit : ℕ) (e : ε) (n : ℕ) (body : ℕ → σ → Comp ε (σ ⊕ ρ)) (w : ℕ × σ) :
    Comp ε ((ℕ × σ) ⊕ (σ ⊕ ρ)) :=
  if w.1 < n then do
    match ← body w.1 w.2 with
    | .inl s => if w.1 + 1 < limit then pure (.inl (w.1 + 1, s)) else fault e
    | .inr r => pure (.inr (.inr r))
  else pure (.inr (.inl w.2))

/-- The loop from the index `i` on. -/
def forFrom (limit : ℕ) (e : ε) (n : ℕ) (body : ℕ → σ → Comp ε (σ ⊕ ρ)) (i : ℕ) (s : σ) :
    Comp ε (σ ⊕ ρ) :=
  loop (forToBody limit e n body) (i, s)

/-- The loop from the index 0 on. -/
def forTo (limit : ℕ) (e : ε) (n : ℕ) (body : ℕ → σ → Comp ε (σ ⊕ ρ)) (s : σ) : Comp ε (σ ⊕ ρ) :=
  forFrom limit e n body 0 s

variable {limit n i : ℕ} {e : ε} {body : ℕ → σ → Comp ε (σ ⊕ ρ)} {s s' : σ}

lemma forFrom_done (h : n ≤ i) : (forFrom limit e n body i s).Ends (.ok (.inl s)) := by
  have hlt : ¬ i < n := by omega
  refine Ends.loop_inr ?_
  rw [forToBody, if_neg hlt]
  exact ends_pure.2 rfl

lemma forFrom_inl {r : Except ε (σ ⊕ ρ)} (hi : i < n) (hlim : i + 1 < limit)
    (hb : (body i s).Ends (.ok (.inl s'))) (h : (forFrom limit e n body (i + 1) s').Ends r) :
    (forFrom limit e n body i s).Ends r := by
  refine Ends.loop_inl ?_ h
  rw [forToBody, if_pos hi]
  refine hb.bind ?_
  dsimp only
  rw [if_pos hlim]
  exact ends_pure.2 rfl

lemma forFrom_overflow (hi : i < n) (hlim : ¬ i + 1 < limit)
    (hb : (body i s).Ends (.ok (.inl s'))) : (forFrom limit e n body i s).Ends (.error e) := by
  refine Ends.loop_fault ?_
  rw [forToBody, if_pos hi]
  refine hb.bind ?_
  dsimp only
  rw [if_neg hlim]
  exact ends_fault.2 rfl

lemma forFrom_inr {r : ρ} (hi : i < n) (hb : (body i s).Ends (.ok (.inr r))) :
    (forFrom limit e n body i s).Ends (.ok (.inr r)) := by
  refine Ends.loop_inr ?_
  rw [forToBody, if_pos hi]
  exact hb.bind (ends_pure.2 rfl)

/-- A loop that is never left early: `inv` speaks of the index that comes next. -/
lemma forTo_ends (inv : ℕ → σ → Prop) (hn : n < limit)
    (hbody : ∀ i < n, ∀ s, inv i s → ∃ s', (body i s).Ends (.ok (.inl s')) ∧ inv (i + 1) s')
    (hinv : inv 0 s) : ∃ s', (forTo limit e n body s).Ends (.ok (.inl s')) ∧ inv n s' := by
  suffices hs : ∀ k i s, i + k = n → inv i s →
      ∃ s', (forFrom limit e n body i s).Ends (.ok (.inl s')) ∧ inv n s' from
    hs n 0 s (Nat.zero_add n) hinv
  intro k
  induction k with
  | zero =>
      rintro i s rfl hs
      exact ⟨s, forFrom_done (Nat.le_refl _), hs⟩
  | succ k ih =>
      intro i s hik hs
      obtain ⟨s₁, hb, hs₁⟩ := hbody i (by omega) s hs
      obtain ⟨s₂, hends, hs₂⟩ := ih (i + 1) s₁ (by omega) hs₁
      exact ⟨s₂, forFrom_inl (by omega) (by omega) hb hends, hs₂⟩

/-- A loop that is never left early and has too many rounds. -/
lemma forTo_overflow (hpos : 0 < limit) (hle : limit ≤ n)
    (hbody : ∀ i < n, ∀ s, ∃ s', (body i s).Ends (.ok (.inl s'))) (s : σ) :
    (forTo limit e n body s).Ends (.error e) := by
  suffices hs : ∀ k i s, i + k + 1 = limit → (forFrom limit e n body i s).Ends (.error e) from
    hs (limit - 1) 0 s (by omega)
  intro k
  induction k with
  | zero =>
      intro i s hik
      obtain ⟨s', hb⟩ := hbody i (by omega) s
      exact forFrom_overflow (by omega) (by omega) hb
  | succ k ih =>
      intro i s hik
      obtain ⟨s', hb⟩ := hbody i (by omega) s
      exact forFrom_inl (by omega) (by omega) hb (ih (i + 1) s' (by omega))

/-! ### Scans -/

/-- A round that goes on while the index has the property. -/
def scanBody (p : ℕ → Bool) (r : ρ) (i : ℕ) (_ : Unit) : Comp ε (Unit ⊕ ρ) :=
  if p i then pure (.inl ()) else pure (.inr r)

variable {p : ℕ → Bool} {r : ρ}

lemma scanBody_inl (hpi : p i = true) :
    (scanBody p r i () : Comp ε (Unit ⊕ ρ)).Ends (.ok (.inl ())) := by
  rw [scanBody, if_pos hpi]
  exact ends_pure.2 rfl

/-- A scan up to `m` passes by indices with the property, unless one overflows. -/
lemma scan_pass {m : ℕ} {x : Except ε (Unit ⊕ ρ)} (hm : m ≤ n) (hp : ∀ i < m, p i = true)
    (h : (forFrom limit e n (scanBody p r) m ()).Ends x) :
    (forTo limit e n (scanBody p r) ()).Ends x ∨
      limit ≤ m ∧ (forTo limit e n (scanBody p r) ()).Ends (.error e) := by
  suffices hs : ∀ k j, j + k = m → (forFrom limit e n (scanBody p r) j ()).Ends x ∨
      limit ≤ m ∧ (forFrom limit e n (scanBody p r) j ()).Ends (.error e) from
    hs m 0 (Nat.zero_add m)
  intro k
  induction k with
  | zero =>
      rintro j rfl
      exact Or.inl h
  | succ k ih =>
      intro j hjk
      have hb : (scanBody p r j () : Comp ε (Unit ⊕ ρ)).Ends (.ok (.inl ())) :=
        scanBody_inl (hp j (by omega))
      by_cases hlim : j + 1 < limit
      · rcases ih (j + 1) (by omega) with hends | ⟨hle, hends⟩
        · exact Or.inl (forFrom_inl (by omega) hlim hb hends)
        · exact Or.inr ⟨hle, forFrom_inl (by omega) hlim hb hends⟩
      · exact Or.inr ⟨by omega, forFrom_overflow (by omega) hlim hb⟩

/-- All indices have the property. -/
lemma scan_ends_inl (hp : ∀ i < n, p i = true) :
    (forTo limit e n (scanBody p r) ()).Ends (.ok (.inl ())) ∨
      limit ≤ n ∧ (forTo limit e n (scanBody p r) ()).Ends (.error e) :=
  scan_pass (Nat.le_refl n) hp (forFrom_done (Nat.le_refl n))

/-- Some index does not have the property. -/
lemma scan_ends_inr (hp : ¬ ∀ i < n, p i = true) :
    (forTo limit e n (scanBody p r) ()).Ends (.ok (.inr r)) ∨
      limit ≤ n ∧ (forTo limit e n (scanBody p r) ()).Ends (.error e) := by
  have hex : ∃ i, i < n ∧ p i = false := by simpa using hp
  obtain ⟨hlt, hpi⟩ := Nat.find_spec hex
  have hmin : ∀ i < Nat.find hex, p i = true := by
    intro i hi
    have hno := Nat.find_min hex hi
    simpa [Nat.lt_trans hi hlt] using hno
  have hexit : (forFrom limit e n (scanBody p r) (Nat.find hex) ()).Ends (.ok (.inr r)) := by
    refine forFrom_inr hlt ?_
    rw [scanBody, if_neg (by simp [hpi])]
    exact ends_pure.2 rfl
  rcases scan_pass (Nat.le_of_lt hlt) hmin hexit with hends | ⟨hle, hends⟩
  · exact Or.inl hends
  · exact Or.inr ⟨by omega, hends⟩

end Comp

end DemoClass
