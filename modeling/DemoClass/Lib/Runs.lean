import Mathlib.Algebra.Order.Ring.Nat
import Mathlib.Data.Nat.Notation
import Mathlib.Order.Notation
import Mathlib.Tactic.TypeStar

/-!
# Runs of a system

A system is given by what an action makes of a state: the next state with the
observations made on the way, or nothing when the action is not possible there.  A
run is a list of actions, the interleaving of what its parties do.  The rule for
invariants is `run_of_invariant`: what every step that meets a condition preserves is
preserved by every run whose steps all meet it, and what every such step observes is
what the run observes.  When the condition is exact for one step, it is exact for runs
(`always_iff_allMeet`).
-/

namespace DemoClass

namespace Runs

variable {σ α ω : Type}

/-- The state after the actions, and the observations on the way. -/
def run (step : σ → α → Option (σ × List ω)) : σ → List α → Option (σ × List ω)
  | s, [] => some (s, [])
  | s, a :: as => do
    let (s', o) ← step s a
    let (s'', os) ← run step s' as
    return (s'', o ++ os)

/-- Every action meets the condition `C` in the state it is taken in. -/
def AllMeet (step : σ → α → Option (σ × List ω)) (C : σ → α → Prop) : σ → List α → Prop
  | _, [] => True
  | s, a :: as => C s a ∧ ∀ r, step s a = some r → AllMeet step C r.1 as

/-- Every state the run comes to has the property. -/
def Always (step : σ → α → Option (σ × List ω)) (I : σ → Prop) : σ → List α → Prop
  | s, [] => I s
  | s, a :: as => I s ∧ ∀ r, step s a = some r → Always step I r.1 as

/-- Some run leads from the one state to the other. -/
def Reaches (step : σ → α → Option (σ × List ω)) (s s' : σ) : Prop :=
  ∃ as os, run step s as = some (s', os)

variable {step : σ → α → Option (σ × List ω)} {C V : σ → α → Prop} {I : σ → Prop} {P : ω → Prop}
  {s s' : σ} {a : α} {as : List α} {os : List ω}

lemma run_cons : run step s (a :: as) = some (s', os) ↔ ∃ t o o', step s a = some (t, o) ∧
    run step t as = some (s', o') ∧ o ++ o' = os := by
  simp only [run, Option.bind_eq_bind, Option.bind_eq_some_iff, Prod.exists, Option.pure_def,
    Option.some.injEq, Prod.mk.injEq]
  constructor
  · rintro ⟨t, o, ht, s'', o', hr, rfl, rfl⟩
    exact ⟨t, o, o', ht, hr, rfl⟩
  · rintro ⟨t, o, o', ht, hr, rfl⟩
    exact ⟨t, o, ht, s', o', hr, rfl, rfl⟩

lemma Reaches.refl (step : σ → α → Option (σ × List ω)) (s : σ) : Reaches step s s := ⟨[], [], rfl⟩

lemma Reaches.head {t : σ} {o : List ω} (hstep : step s a = some (t, o))
    (h : Reaches step t s') : Reaches step s s' := by
  obtain ⟨as, os, hrun⟩ := h
  exact ⟨a :: as, o ++ os, run_cons.2 ⟨t, o, os, hstep, hrun, rfl⟩⟩

lemma run_append {t : σ} {as' : List α} {os' : List ω} (h : run step s as = some (t, os))
    (h' : run step t as' = some (s', os')) : run step s (as ++ as') = some (s', os ++ os') := by
  induction as generalizing s os with
  | nil =>
      obtain ⟨rfl, rfl⟩ : s = t ∧ [] = os := by simpa [run] using h
      exact h'
  | cons a as ih =>
      obtain ⟨u, o, o', hstep, hrest, rfl⟩ := run_cons.1 h
      rw [List.append_assoc]
      exact run_cons.2 ⟨u, o, o' ++ os', hstep, ih hrest, rfl⟩

lemma Reaches.trans {t : σ} (h : Reaches step s t) (h' : Reaches step t s') :
    Reaches step s s' := by
  obtain ⟨as, os, hrun⟩ := h
  obtain ⟨as', os', hrun'⟩ := h'
  exact ⟨as ++ as', os ++ os', run_append hrun hrun'⟩

/-- Where no step is possible, nothing else is reached. -/
lemma Reaches.eq_of_stuck (h : Reaches step s s') (hstuck : ∀ a, step s a = none) : s' = s := by
  obtain ⟨as, os, hrun⟩ := h
  cases as with
  | nil =>
      obtain ⟨rfl, -⟩ : s = s' ∧ [] = os := by simpa [run] using hrun
      rfl
  | cons a as =>
      obtain ⟨t, o, o', ht, -⟩ := run_cons.1 hrun
      rw [hstuck a] at ht
      cases ht

/-- **Invariants of runs.** -/
theorem run_of_invariant
    (hstep : ∀ s a s' o, I s → C s a → step s a = some (s', o) → I s' ∧ ∀ x ∈ o, P x)
    (hs : I s) (hC : AllMeet step C s as) (hrun : run step s as = some (s', os)) :
    I s' ∧ ∀ x ∈ os, P x := by
  induction as generalizing s os with
  | nil =>
      obtain ⟨rfl, rfl⟩ : s = s' ∧ [] = os := by simpa [run] using hrun
      exact ⟨hs, by simp⟩
  | cons a as ih =>
      obtain ⟨t, o, o', ht, hr, rfl⟩ := run_cons.1 hrun
      obtain ⟨hIt, ho⟩ := hstep s a t o hs hC.1 ht
      obtain ⟨hI, ho'⟩ := ih hIt (hC.2 (t, o) ht) hr
      refine ⟨hI, fun x hx => ?_⟩
      rcases List.mem_append.1 hx with hx | hx
      · exact ho x hx
      · exact ho' x hx

lemma allMeet_true (as : List α) (s : σ) : AllMeet step (fun _ _ => True) s as := by
  induction as generalizing s with
  | nil => trivial
  | cons a as ih => exact ⟨trivial, fun r _ => ih r.1⟩

/-- What every step preserves holds in every state that is reached. -/
theorem Reaches.of_invariant (hstep : ∀ s a s' o, I s → step s a = some (s', o) → I s') (hs : I s)
    (h : Reaches step s s') : I s' := by
  obtain ⟨as, os, hrun⟩ := h
  exact (run_of_invariant (P := fun _ => True)
    (fun s a t o hI _ ht => ⟨hstep s a t o hI ht, fun _ _ => trivial⟩) hs (allMeet_true as s)
    hrun).1

lemma Always.head (h : Always step I s as) : I s := by
  cases as with
  | nil => exact h
  | cons a as => exact h.1

lemma Always.last (h : Always step I s as) (hrun : run step s as = some (s', os)) : I s' := by
  induction as generalizing s os with
  | nil =>
      obtain ⟨rfl, rfl⟩ : s = s' ∧ [] = os := by simpa [run] using hrun
      exact h
  | cons a as ih =>
      obtain ⟨t, o, o', ht, hr, rfl⟩ := run_cons.1 hrun
      exact ih (h.2 (t, o) ht) hr

/-- **Exact conditions.**  If a step from a state with the invariant leads to one with the
property just when the action meets the condition, and then keeps the invariant, a run has
the property throughout just when all its actions meet the condition. -/
theorem always_iff_allMeet_of_invariant {J : σ → Prop} (hJ : ∀ s, J s → I s)
    (hstep : ∀ s a r, J s → V s a → step s a = some r → (I r.1 ↔ C s a) ∧ (C s a → J r.1))
    (hs : J s) (hV : AllMeet step V s as) (hrun : run step s as = some (s', os)) :
    Always step I s as ↔ AllMeet step C s as := by
  induction as generalizing s os with
  | nil => exact iff_of_true (hJ s hs) trivial
  | cons a as ih =>
      obtain ⟨t, o, o', ht, hr, rfl⟩ := run_cons.1 hrun
      obtain ⟨hiff, hnext⟩ := hstep s a (t, o) hs hV.1 ht
      constructor
      · rintro ⟨-, hall⟩
        have htail := hall (t, o) ht
        have hC := hiff.1 htail.head
        refine ⟨hC, fun r hr' => ?_⟩
        obtain rfl : (t, o) = r := Option.some.inj (ht.symm.trans hr')
        exact (ih (hnext hC) (hV.2 (t, o) ht) hr).1 htail
      · rintro ⟨hC, hall⟩
        refine ⟨hJ s hs, fun r hr' => ?_⟩
        obtain rfl : (t, o) = r := Option.some.inj (ht.symm.trans hr')
        exact (ih (hnext hC) (hV.2 (t, o) ht) hr).2 (hall (t, o) ht)

/-- A property that is its own invariant. -/
theorem always_iff_allMeet
    (hstep : ∀ s a r, I s → V s a → step s a = some r → (I r.1 ↔ C s a))
    (hs : I s) (hV : AllMeet step V s as) (hrun : run step s as = some (s', os)) :
    Always step I s as ↔ AllMeet step C s as := by
  refine always_iff_allMeet_of_invariant (J := I) (fun _ h => h) (fun s a r h hv hr => ?_) hs hV
    hrun
  have hiff := hstep s a r h hv hr
  exact ⟨hiff, hiff.2⟩

/-- **Exact conditions on what is observed.**  If every step keeps an invariant, and what it
observes is right just when it meets the condition, then all that a run observes is right just
when all its actions meet the condition. -/
theorem observed_iff_allMeet
    (hstep : ∀ s a s' o, I s → step s a = some (s', o) → I s' ∧ ((∀ x ∈ o, P x) ↔ C s a))
    (hs : I s) (hrun : run step s as = some (s', os)) :
    (∀ x ∈ os, P x) ↔ AllMeet step C s as := by
  induction as generalizing s os with
  | nil =>
      obtain ⟨-, rfl⟩ : s = s' ∧ [] = os := by simpa [run] using hrun
      exact iff_of_true (by simp) trivial
  | cons a as ih =>
      obtain ⟨t, o, o', ht, hr, rfl⟩ := run_cons.1 hrun
      obtain ⟨hIt, hiff⟩ := hstep s a t o hs ht
      rw [List.forall_mem_append, hiff, ih hIt hr]
      constructor
      · rintro ⟨hC, htail⟩
        refine ⟨hC, fun r hr' => ?_⟩
        obtain rfl : (t, o) = r := Option.some.inj (ht.symm.trans hr')
        exact htail
      · rintro ⟨hC, htail⟩
        exact ⟨hC, htail (t, o) ht⟩

/-! ### Guarded steps -/

/-- The steps that lead to a state with `G`; a party waits as long as its step does not. -/
def guarded (step : σ → α → Option (σ × List ω)) (G : σ → Prop) [DecidablePred G] (s : σ) (a : α) :
    Option (σ × List ω) :=
  (step s a).filter fun r => G r.1

lemma guarded_eq_some {G : σ → Prop} [DecidablePred G] {r : σ × List ω} :
    guarded step G s a = some r ↔ step s a = some r ∧ G r.1 := by
  rw [guarded, Option.filter_eq_some_iff, decide_eq_true_iff]

/-- A guarded run is a run. -/
lemma run_of_guarded {G : σ → Prop} [DecidablePred G]
    (h : run (guarded step G) s as = some (s', os)) : run step s as = some (s', os) := by
  induction as generalizing s os with
  | nil => exact h
  | cons a as ih =>
      obtain ⟨t, o, o', ht, hrest, rfl⟩ := run_cons.1 h
      exact run_cons.2 ⟨t, o, o', (guarded_eq_some.1 ht).1, ih hrest, rfl⟩

/-! ### How long runs are -/

/-- Every step takes something from a measure, or is paid for by its action: the actions of a run
are no more than the measure and what they pay. -/
theorem length_run_le (μ : σ → ℕ) (pays : α → ℕ)
    (hstep : ∀ s a s' o, I s → step s a = some (s', o) → I s' ∧ μ s' + 1 ≤ μ s + pays a)
    (hs : I s) (hrun : run step s as = some (s', os)) :
    as.length + μ s' ≤ μ s + (as.map pays).sum := by
  induction as generalizing s os with
  | nil =>
      obtain ⟨rfl, -⟩ : s = s' ∧ [] = os := by simpa [run] using hrun
      simp
  | cons a as ih =>
      obtain ⟨t, o, o', ht, hr, -⟩ := run_cons.1 hrun
      obtain ⟨hIt, hμ⟩ := hstep s a t o hs ht
      have htail := ih hIt hr
      rw [List.length_cons, List.map_cons, List.sum_cons]
      omega

/-- Where a step that makes the measure smaller is always possible, some run gets to the end, and
it observes what such steps do. -/
theorem exists_run (μ : σ → ℕ) {F : σ → Prop}
    (hstep : ∀ s, I s → ¬ F s → ∃ a s' o, step s a = some (s', o) ∧ I s' ∧ μ s' < μ s ∧
      ∀ x ∈ o, P x) (hs : I s) :
    ∃ as s' os, run step s as = some (s', os) ∧ I s' ∧ F s' ∧ ∀ x ∈ os, P x := by
  induction hn : μ s using Nat.strongRecOn generalizing s with
  | ind n ih =>
      by_cases hF : F s
      · exact ⟨[], s, [], rfl, hs, hF, by simp⟩
      · obtain ⟨a, t, o, ht, hIt, hμ, ho⟩ := hstep s hs hF
        obtain ⟨as, s', os, hrun, hI, hF', hos⟩ := ih (μ t) (hn ▸ hμ) hIt rfl
        refine ⟨a :: as, s', o ++ os, run_cons.2 ⟨t, o, os, ht, hrun, rfl⟩, hI, hF', fun x hx => ?_⟩
        rcases List.mem_append.1 hx with hx | hx
        · exact ho x hx
        · exact hos x hx

/-- Some run gets to the end. -/
theorem exists_reaches (μ : σ → ℕ) {F : σ → Prop}
    (hstep : ∀ s, I s → ¬ F s → ∃ a s' o, step s a = some (s', o) ∧ I s' ∧ μ s' < μ s)
    (hs : I s) : ∃ s', Reaches step s s' ∧ F s' := by
  obtain ⟨as, s', os, hrun, -, hF, -⟩ := exists_run μ
    (fun s hI hF => by
      obtain ⟨a, s', o, hs', hI', hμ⟩ := hstep s hI hF
      exact ⟨a, s', o, hs', hI', hμ, fun _ _ => trivial⟩) hs
  exact ⟨s', ⟨as, os, hrun⟩, hF⟩

/-! ### Books -/

/-- What the steps of a run put on a list, in their order. -/
def logged {β : Type} (step : σ → α → Option (σ × List ω)) (f : σ → α → List β) :
    σ → List α → List β
  | _, [] => []
  | s, a :: as => f s a ++ ((step s a).map fun r => logged step f r.1 as).getD []

/-- Steps that put nothing there. -/
lemma logged_eq_nil {β : Type} (as : List α) (s : σ) :
    logged step (fun _ _ => ([] : List β)) s as = [] := by
  induction as generalizing s with
  | nil => rfl
  | cons a as ih =>
      rw [logged, List.nil_append]
      cases step s a with
      | none => rfl
      | some r => exact ih r.1

/-- A part of what is put there is put there part by part. -/
lemma logged_part {β : Type} {f : σ → α → List β} {p : List β → List β} (hnil : p [] = [])
    (happend : ∀ o o', p (o ++ o') = p o ++ p o') (as : List α) (s : σ) :
    p (logged step f s as) = logged step (fun s a => p (f s a)) s as := by
  induction as generalizing s with
  | nil => exact hnil
  | cons a as ih =>
      rw [logged, logged, happend]
      cases step s a with
      | none => rw [Option.map_none, Option.map_none, Option.getD_none, hnil]
      | some r => rw [Option.map_some, Option.map_some, Option.getD_some, Option.getD_some, ih]

/-- **Keeping books.**  When what a step observes of interest, followed by what is there behind it,
is what was there before, followed by what the step puts there, then this holds of runs. -/
theorem run_books {β : Type} {f : σ → α → List β} {g : σ → List β} {p : List ω → List β}
    (hnil : p [] = []) (happend : ∀ o o', p (o ++ o') = p o ++ p o')
    (hstep : ∀ s a s' o, I s → step s a = some (s', o) → I s' ∧ p o ++ g s' = g s ++ f s a)
    (hs : I s) (hrun : run step s as = some (s', os)) :
    p os ++ g s' = g s ++ logged step f s as := by
  induction as generalizing s os with
  | nil =>
      obtain ⟨rfl, rfl⟩ : s = s' ∧ [] = os := by simpa [run] using hrun
      rw [hnil, logged, List.nil_append, List.append_nil]
  | cons a as ih =>
      obtain ⟨t, o, o', ht, hr, rfl⟩ := run_cons.1 hrun
      obtain ⟨hIt, hbooks⟩ := hstep s a t o hs ht
      rw [happend, List.append_assoc, ih hIt hr, ← List.append_assoc, hbooks, List.append_assoc,
        logged, ht, Option.map_some, Option.getD_some]

/-- When what a step observes lies above where a measure was, and not above where it is then, a run
observes larger and larger numbers. -/
theorem run_increasing {step : σ → α → Option (σ × List ℕ)} (μ : σ → ℕ)
    (hstep : ∀ s a s' o, I s → step s a = some (s', o) → I s' ∧ μ s ≤ μ s' ∧
      o.Pairwise (· < ·) ∧ ∀ x ∈ o, μ s < x ∧ x ≤ μ s') {os : List ℕ}
    (hs : I s) (hrun : run step s as = some (s', os)) :
    os.Pairwise (· < ·) ∧ μ s ≤ μ s' ∧ ∀ x ∈ os, μ s < x ∧ x ≤ μ s' := by
  induction as generalizing s os with
  | nil =>
      obtain ⟨rfl, rfl⟩ : s = s' ∧ [] = os := by simpa [run] using hrun
      exact ⟨.nil, Nat.le_refl _, by simp⟩
  | cons a as ih =>
      obtain ⟨t, o, o', ht, hr, rfl⟩ := run_cons.1 hrun
      obtain ⟨hIt, hle, hsorted, ho⟩ := hstep s a t o hs ht
      obtain ⟨hsorted', hle', ho'⟩ := ih hIt hr
      refine ⟨List.pairwise_append.2 ⟨hsorted, hsorted', fun x hx y hy => ?_⟩, by omega,
        fun x hx => ?_⟩
      · have hxle := (ho x hx).2
        have hylt := (ho' y hy).1
        omega
      · rcases List.mem_append.1 hx with hx | hx
        · have hbounds := ho x hx
          omega
        · have hbounds := ho' x hx
          omega

/-- The condition can be checked along the run. -/
instance decidableAllMeet [∀ s a, Decidable (C s a)] :
    ∀ (s : σ) (as : List α), Decidable (AllMeet step C s as)
  | _, [] => isTrue trivial
  | s, a :: as =>
    have : Decidable (∀ r, step s a = some r → AllMeet step C r.1 as) :=
      match h : step s a with
      | none => isTrue (by simp)
      | some r =>
        @decidable_of_iff _ (AllMeet step C r.1 as)
          (by simp only [Option.some.injEq, forall_eq']) (decidableAllMeet r.1 as)
    inferInstanceAs (Decidable (C s a ∧ ∀ r, step s a = some r → AllMeet step C r.1 as))

end Runs

end DemoClass
