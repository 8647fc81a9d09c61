import Mathlib.Logic.Function.Basic
import Mathlib.Data.Nat.Basic

/-!
# Computations that may fault or run forever

A C function is modelled by a computation that is run with a bound on the number
of iterations of its loops.  With too small a bound it has no outcome; with a
large enough bound it either returns a value or faults (an access outside an
array, a division that traps, …).  The outcome does not depend on the bound, and
this is a field of the structure, so that the bound never shows in a statement:

* `Comp.Ends c r` says that the outcome of `c` is `r`, a returned value or a fault;
* `Comp.Halts c` says that `c` has an outcome;
* `Comp.loop` is the unbounded loop, with the rules `Comp.loop_ends_iff`,
  `Comp.Iterates.ends` (run the body a known number of times) and
  `Comp.not_halts_loop` (an invariant that never leaves the loop);
* `Comp.recur` is the recursive function with a given body, with the rule
  `Comp.Ends.recur`.
-/

namespace DemoClass

/-- A computation with faults in `ε` and values in `α`, run on a bound on the
number of iterations.  Once it has an outcome, a larger bound gives the same. -/
structure Comp (ε α : Type) where
  /-- The outcome with the given bound, if there is one. -/
  run : ℕ → Option (Except ε α)
  mono : ∀ {m n : ℕ} {r : Except ε α}, m ≤ n → run m = some r → run n = some r

namespace Comp

variable {ε α β σ ρ : Type}

/-- `c` returns or faults with the outcome `r`. -/
def Ends (c : Comp ε α) (r : Except ε α) : Prop := ∃ n, c.run n = some r

/-- `c` returns or faults: it does not run forever. -/
def Halts (c : Comp ε α) : Prop := ∃ r, c.Ends r

/-- The computation that ends at once with the outcome `r`. -/
def ofExcept (r : Except ε α) : Comp ε α := ⟨fun _ => some r, fun _ h => h⟩

/-- The computation that faults at once. -/
def fault (e : ε) : Comp ε α := ofExcept (.error e)

/-- Run `c` and then, unless it faults, `f` on the value it returns. -/
def andThen (c : Comp ε α) (f : α → Comp ε β) : Comp ε β where
  run n :=
    match c.run n with
    | none => none
    | some (.error e) => some (.error e)
    | some (.ok a) => (f a).run n
  mono := by
    intro m n r hmn h
    rcases hc : c.run m with _ | (e | a)
    · simp [hc] at h
    · rw [c.mono hmn hc]
      simpa [hc] using h
    · rw [c.mono hmn hc]
      simp only [hc] at h
      exact (f a).mono hmn h

instance : Monad (Comp ε) where
  pure a := ofExcept (.ok a)
  bind := andThen

lemma ext_run {c d : Comp ε α} (h : ∀ n, c.run n = d.run n) : c = d := by
  obtain ⟨f, hf⟩ := c
  obtain ⟨g, hg⟩ := d
  obtain rfl : f = g := funext h
  rfl

lemma andThen_pure (c : Comp ε α) : (c.andThen fun a => ofExcept (.ok a)) = c := by
  refine ext_run fun n => ?_
  rcases hc : c.run n with _ | (e | a) <;> simp [andThen, ofExcept, hc]

lemma andThen_assoc {γ : Type} (c : Comp ε α) (f : α → Comp ε β) (g : β → Comp ε γ) :
    (c.andThen f).andThen g = c.andThen fun a => (f a).andThen g := by
  refine ext_run fun n => ?_
  rcases hc : c.run n with _ | (e | a) <;> simp [andThen, hc]

instance : LawfulMonad (Comp ε) :=
  LawfulMonad.mk' _ (fun c => andThen_pure c) (fun _ _ => rfl) andThen_assoc

/-! ### Outcomes -/

lemma Ends.unique {c : Comp ε α} {r r' : Except ε α} (h : c.Ends r) (h' : c.Ends r') :
    r = r' := by
  obtain ⟨m, hm⟩ := h
  obtain ⟨n, hn⟩ := h'
  have h₁ := c.mono (le_max_left m n) hm
  have h₂ := c.mono (le_max_right m n) hn
  exact Option.some.inj (h₁.symm.trans h₂)

lemma Ends.halts {c : Comp ε α} {r : Except ε α} (h : c.Ends r) : c.Halts := ⟨r, h⟩

@[simp] lemma ends_ofExcept {r r' : Except ε α} : (ofExcept r).Ends r' ↔ r' = r := by
  constructor
  · rintro ⟨n, hn⟩
    exact (Option.some.inj hn).symm
  · rintro rfl
    exact ⟨0, rfl⟩

@[simp] lemma ends_pure {a : α} {r : Except ε α} :
    (pure a : Comp ε α).Ends r ↔ r = .ok a := ends_ofExcept

@[simp] lemma ends_fault {e : ε} {r : Except ε α} :
    (fault e : Comp ε α).Ends r ↔ r = .error e := ends_ofExcept

@[simp] lemma fault_bind (e : ε) (f : α → Comp ε β) :
    ((fault e : Comp ε α) >>= f) = fault e := rfl

lemma Ends.bind {c : Comp ε α} {f : α → Comp ε β} {a : α} {r : Except ε β}
    (h : c.Ends (.ok a)) (h' : (f a).Ends r) : (c >>= f).Ends r := by
  obtain ⟨m, hm⟩ := h
  obtain ⟨n, hn⟩ := h'
  refine ⟨max m n, ?_⟩
  show (andThen c f).run _ = _
  simp only [andThen, c.mono (le_max_left m n) hm]
  exact (f a).mono (le_max_right m n) hn

lemma Ends.bind_fault {c : Comp ε α} {f : α → Comp ε β} {e : ε}
    (h : c.Ends (.error e)) : (c >>= f).Ends (.error e) := by
  obtain ⟨n, hn⟩ := h
  refine ⟨n, ?_⟩
  show (andThen c f).run n = _
  simp [andThen, hn]

lemma ends_bind_iff {c : Comp ε α} {f : α → Comp ε β} {r : Except ε β} :
    (c >>= f).Ends r ↔
      (∃ a, c.Ends (.ok a) ∧ (f a).Ends r) ∨ ∃ e, c.Ends (.error e) ∧ r = .error e := by
  constructor
  · rintro ⟨n, hn⟩
    change (andThen c f).run n = _ at hn
    rcases hc : c.run n with _ | (e | a)
    · simp [andThen, hc] at hn
    · refine Or.inr ⟨e, ⟨n, hc⟩, ?_⟩
      simpa [andThen, hc, eq_comm] using hn
    · exact Or.inl ⟨a, ⟨n, hc⟩, n, by simpa [andThen, hc] using hn⟩
  · rintro (⟨a, hc, hf⟩ | ⟨e, hc, rfl⟩)
    · exact hc.bind hf
    · exact hc.bind_fault

lemma ends_bind_ok_iff {c : Comp ε α} {f : α → Comp ε β} {b : β} :
    (c >>= f).Ends (.ok b) ↔ ∃ a, c.Ends (.ok a) ∧ (f a).Ends (.ok b) := by
  simp [ends_bind_iff]

/-- Once the outcome of the first part is known, only the second part is left. -/
lemma Ends.bind_iff {c : Comp ε α} {f : α → Comp ε β} {a : α} {r : Except ε β}
    (h : c.Ends (.ok a)) : (c >>= f).Ends r ↔ (f a).Ends r := by
  constructor
  · intro h'
    rcases ends_bind_iff.1 h' with ⟨b, hb, hf⟩ | ⟨e, he, -⟩
    · obtain rfl : a = b := by simpa using h.unique hb
      exact hf
    · exact absurd (h.unique he) (by simp)
  · exact h.bind

lemma Ends.of_bind {c : Comp ε α} {f : α → Comp ε β} {r : Except ε β}
    (h : (c >>= f).Ends r) : c.Halts := by
  rcases ends_bind_iff.1 h with ⟨a, ha, -⟩ | ⟨e, he, -⟩
  · exact ha.halts
  · exact he.halts

/-- A fault that does not come from the second part comes from the first. -/
lemma Ends.fault_of_bind {c : Comp ε α} {f : α → Comp ε β} {e : ε}
    (h : (c >>= f).Ends (.error e)) (hf : ∀ a, ¬ (f a).Ends (.error e)) : c.Ends (.error e) := by
  rcases ends_bind_iff.1 h with ⟨a, -, ha⟩ | ⟨e', he', hee⟩
  · exact absurd ha (hf a)
  · obtain rfl : e = e' := by simpa using hee
    exact he'

lemma halts_ofExcept (r : Except ε α) : (ofExcept r).Halts := ⟨r, by simp⟩

lemma halts_pure (a : α) : (pure a : Comp ε α).Halts := halts_ofExcept _

lemma halts_fault (e : ε) : (fault e : Comp ε α).Halts := halts_ofExcept _

lemma Halts.bind {c : Comp ε α} {f : α → Comp ε β} (h : c.Halts)
    (hf : ∀ a, c.Ends (.ok a) → (f a).Halts) : (c >>= f).Halts := by
  obtain ⟨e | a, h⟩ := h
  · exact h.bind_fault.halts
  · obtain ⟨r, hr⟩ := hf a h
    exact (h.bind hr).halts

/-- Once the outcome of the first part is known, only the second part is left. -/
lemma Ends.bind_halts_iff {c : Comp ε α} {f : α → Comp ε β} {a : α} (h : c.Ends (.ok a)) :
    (c >>= f).Halts ↔ (f a).Halts :=
  exists_congr fun _ => h.bind_iff

/-! ### Loops -/

/-- The first `n` iterations of the loop with the given body: the body maps the
state either to the next state or to the value with which the loop is left. -/
def loopRun (body : σ → Comp ε (σ ⊕ ρ)) : ℕ → σ → Option (Except ε ρ)
  | 0, _ => none
  | n + 1, s =>
    match (body s).run n with
    | none => none
    | some (.error e) => some (.error e)
    | some (.ok (.inl s')) => loopRun body n s'
    | some (.ok (.inr r)) => some (.ok r)

lemma loopRun_mono (body : σ → Comp ε (σ ⊕ ρ)) {m : ℕ} :
    ∀ {n : ℕ} {s : σ} {r : Except ε ρ}, m ≤ n → loopRun body m s = some r →
      loopRun body n s = some r := by
  induction m with
  | zero => intro n s r _ h; simp [loopRun] at h
  | succ m ih =>
      intro n s r hmn h
      obtain ⟨n, rfl⟩ : ∃ k, n = k + 1 := ⟨n - 1, by omega⟩
      have hle : m ≤ n := by omega
      rcases hb : (body s).run m with _ | (e | (s' | v))
      · simp [loopRun, hb] at h
      · simpa [loopRun, hb, (body s).mono hle hb] using h
      · simp only [loopRun, hb] at h
        simpa only [loopRun, (body s).mono hle hb] using ih hle h
      · simpa [loopRun, hb, (body s).mono hle hb] using h

/-- The loop `while (1) body`, left when the body says so. -/
def loop (body : σ → Comp ε (σ ⊕ ρ)) (s : σ) : Comp ε ρ where
  run n := loopRun body n s
  mono hmn h := loopRun_mono body hmn h

lemma loop_ends_iff {body : σ → Comp ε (σ ⊕ ρ)} {s : σ} {r : Except ε ρ} :
    (loop body s).Ends r ↔
      (∃ s', (body s).Ends (.ok (.inl s')) ∧ (loop body s').Ends r) ∨
      (∃ v, (body s).Ends (.ok (.inr v)) ∧ r = .ok v) ∨
      ∃ e, (body s).Ends (.error e) ∧ r = .error e := by
  constructor
  · rintro ⟨n, hn⟩
    change loopRun body n s = _ at hn
    cases n with
    | zero => simp [loopRun] at hn
    | succ n =>
        rcases hb : (body s).run n with _ | (e | (s' | v))
        · simp [loopRun, hb] at hn
        · exact Or.inr (Or.inr ⟨e, ⟨n, hb⟩, by simpa [loopRun, hb, eq_comm] using hn⟩)
        · exact Or.inl ⟨s', ⟨n, hb⟩, n, by simpa [loopRun, hb, loop] using hn⟩
        · exact Or.inr (Or.inl ⟨v, ⟨n, hb⟩, by simpa [loopRun, hb, eq_comm] using hn⟩)
  · rintro (⟨s', ⟨m, hm⟩, n, hn⟩ | ⟨v, ⟨m, hm⟩, rfl⟩ | ⟨e, ⟨m, hm⟩, rfl⟩)
    · refine ⟨max m n + 1, ?_⟩
      show loopRun body (max m n + 1) s = _
      simp only [loopRun, (body s).mono (le_max_left m n) hm]
      exact loopRun_mono body (le_max_right m n) hn
    · exact ⟨m + 1, by simp [loop, loopRun, hm]⟩
    · exact ⟨m + 1, by simp [loop, loopRun, hm]⟩

/-- States with the same first round. -/
lemma loop_ends_congr {body : σ → Comp ε (σ ⊕ ρ)} {s t : σ} {r : Except ε ρ}
    (h : body s = body t) : (loop body s).Ends r ↔ (loop body t).Ends r := by
  rw [loop_ends_iff, loop_ends_iff, h]

lemma Ends.loop_inl {body : σ → Comp ε (σ ⊕ ρ)} {s t : σ} {r : Except ε ρ}
    (h : (body s).Ends (.ok (.inl t))) (h' : (loop body t).Ends r) :
    (loop body s).Ends r :=
  loop_ends_iff.2 (Or.inl ⟨t, h, h'⟩)

lemma Ends.loop_inr {body : σ → Comp ε (σ ⊕ ρ)} {s : σ} {v : ρ}
    (h : (body s).Ends (.ok (.inr v))) : (loop body s).Ends (.ok v) :=
  loop_ends_iff.2 (Or.inr (Or.inl ⟨v, h, rfl⟩))

lemma Ends.loop_fault {body : σ → Comp ε (σ ⊕ ρ)} {s : σ} {e : ε}
    (h : (body s).Ends (.error e)) : (loop body s).Ends (.error e) :=
  loop_ends_iff.2 (Or.inr (Or.inr ⟨e, h, rfl⟩))

lemma Ends.loop_inl_bind {body : σ → Comp ε (σ ⊕ ρ)} {k : ρ → Comp ε α} {s t : σ}
    {r : Except ε α} (h : (body s).Ends (.ok (.inl t))) (h' : (loop body t >>= k).Ends r) :
    (loop body s >>= k).Ends r := by
  rcases ends_bind_iff.1 h' with ⟨v, hv, hk⟩ | ⟨e, he, rfl⟩
  · exact (h.loop_inl hv).bind hk
  · exact (h.loop_inl he).bind_fault

/-- A round that continues decides nothing. -/
lemma Ends.loop_inl_iff {body : σ → Comp ε (σ ⊕ ρ)} {s t : σ} {r : Except ε ρ}
    (h : (body s).Ends (.ok (.inl t))) : (loop body s).Ends r ↔ (loop body t).Ends r := by
  refine ⟨fun hr => ?_, h.loop_inl⟩
  rcases loop_ends_iff.1 hr with ⟨t', ht', hr'⟩ | ⟨v, hv, -⟩ | ⟨e, he, -⟩
  · obtain rfl : t = t' := by simpa using h.unique ht'
    exact hr'
  · exact absurd (h.unique hv) (by simp)
  · exact absurd (h.unique he) (by simp)

lemma Ends.loop_halts_iff {body : σ → Comp ε (σ ⊕ ρ)} {s t : σ}
    (h : (body s).Ends (.ok (.inl t))) : (loop body s).Halts ↔ (loop body t).Halts :=
  exists_congr fun _ => h.loop_inl_iff

/-- A loop whose rounds halt and make a measure smaller halts. -/
lemma halts_loop {body : σ → Comp ε (σ ⊕ ρ)} (μ : σ → ℕ) (hbody : ∀ s, (body s).Halts)
    (hdec : ∀ s t, (body s).Ends (.ok (.inl t)) → μ t < μ s) (s : σ) : (loop body s).Halts := by
  induction hn : μ s using Nat.strong_induction_on generalizing s with
  | _ n ih =>
      obtain ⟨e | t | v, h⟩ := hbody s
      · exact h.loop_fault.halts
      · exact h.loop_halts_iff.2 (ih (μ t) (hn ▸ hdec s t h) t rfl)
      · exact h.loop_inr.halts

/-- The body continues `n` times in a row, from `s` to `s'`. -/
inductive Iterates (body : σ → Comp ε (σ ⊕ ρ)) : ℕ → σ → σ → Prop
  | refl (s : σ) : Iterates body 0 s s
  | step {n : ℕ} {s s' s'' : σ} : (body s).Ends (.ok (.inl s')) → Iterates body n s' s'' →
      Iterates body (n + 1) s s''

lemma Iterates.ends_iff {body : σ → Comp ε (σ ⊕ ρ)} {n : ℕ} {s s' : σ} {r : Except ε ρ}
    (h : Iterates body n s s') : (loop body s).Ends r ↔ (loop body s').Ends r := by
  induction h with
  | refl => exact Iff.rfl
  | step hb _ ih => exact hb.loop_inl_iff.trans ih

lemma Iterates.ends {body : σ → Comp ε (σ ⊕ ρ)} {n : ℕ} {s s' : σ} {r : Except ε ρ}
    (h : Iterates body n s s') (h' : (loop body s').Ends r) : (loop body s).Ends r :=
  h.ends_iff.2 h'

/-- A loop that ends does so in the round behind some that continue. -/
lemma loop_ends_iff_iterates {body : σ → Comp ε (σ ⊕ ρ)} {s : σ} {r : Except ε ρ} :
    (loop body s).Ends r ↔ ∃ n s', Iterates body n s s' ∧
      ((∃ v, (body s').Ends (.ok (.inr v)) ∧ r = .ok v) ∨
        ∃ e, (body s').Ends (.error e) ∧ r = .error e) := by
  constructor
  · rintro ⟨k, hk⟩
    change loopRun body k s = _ at hk
    induction k generalizing s with
    | zero => simp [loopRun] at hk
    | succ k ih =>
        rcases hrun : (body s).run k with _ | (e | (t | v))
        · simp [loopRun, hrun] at hk
        · obtain rfl : .error e = r := by simpa [loopRun, hrun] using hk
          exact ⟨0, s, .refl s, Or.inr ⟨e, ⟨k, hrun⟩, rfl⟩⟩
        · obtain ⟨n, s', hn, hs'⟩ := ih (by simpa [loopRun, hrun] using hk)
          exact ⟨n + 1, s', .step ⟨k, hrun⟩ hn, hs'⟩
        · obtain rfl : .ok v = r := by simpa [loopRun, hrun] using hk
          exact ⟨0, s, .refl s, Or.inl ⟨v, ⟨k, hrun⟩, rfl⟩⟩
  · rintro ⟨n, s', hn, ⟨v, hv, rfl⟩ | ⟨e, he, rfl⟩⟩
    · exact hn.ends hv.loop_inr
    · exact hn.ends he.loop_fault

lemma Iterates.snoc {body : σ → Comp ε (σ ⊕ ρ)} {n : ℕ} {s s' s'' : σ}
    (h : Iterates body n s s') (hb : (body s').Ends (.ok (.inl s''))) :
    Iterates body (n + 1) s s'' := by
  induction h with
  | refl s => exact .step hb (.refl s'')
  | step hb' _ ih => exact .step hb' (ih hb)

/-- What every round that continues preserves holds after some of them. -/
lemma Iterates.invariant {body : σ → Comp ε (σ ⊕ ρ)} {I : σ → Prop} {n : ℕ} {s s' : σ}
    (hstep : ∀ s t, I s → (body s).Ends (.ok (.inl t)) → I t) (h : Iterates body n s s')
    (hs : I s) : I s' := by
  induction h with
  | refl => exact hs
  | step hb _ ih => exact ih (hstep _ _ hs hb)

lemma loop_ends_ok_iff {body : σ → Comp ε (σ ⊕ ρ)} {s : σ} {v : ρ} :
    (loop body s).Ends (.ok v) ↔ ∃ n s', Iterates body n s s' ∧ (body s').Ends (.ok (.inr v)) := by
  simp [loop_ends_iff_iterates]

lemma loop_ends_error_iff {body : σ → Comp ε (σ ⊕ ρ)} {s : σ} {e : ε} :
    (loop body s).Ends (.error e) ↔ ∃ n s', Iterates body n s s' ∧ (body s').Ends (.error e) := by
  simp [loop_ends_iff_iterates]

/-- What every round preserves holds when the loop is left. -/
lemma Ends.loop_invariant {body : σ → Comp ε (σ ⊕ ρ)} {I : σ → Prop} {P : ρ → Prop}
    (hstep : ∀ s t, I s → (body s).Ends (.ok (.inl t)) → I t)
    (hexit : ∀ s v, I s → (body s).Ends (.ok (.inr v)) → P v) {s : σ} {v : ρ} (hs : I s)
    (h : (loop body s).Ends (.ok v)) : P v := by
  obtain ⟨n, s', hn, hv⟩ := loop_ends_ok_iff.1 h
  exact hexit s' v (hn.invariant hstep hs) hv

/-- An invariant under which the body always continues keeps the loop running
forever. -/
lemma not_halts_loop {body : σ → Comp ε (σ ⊕ ρ)} {I : σ → Prop}
    (hI : ∀ s, I s → ∃ s', I s' ∧ (body s).Ends (.ok (.inl s'))) {s : σ} (hs : I s) :
    ¬ (loop body s).Halts := by
  rintro ⟨r, n, hn⟩
  change loopRun body n s = _ at hn
  induction n generalizing s with
  | zero => simp [loopRun] at hn
  | succ n ih =>
      obtain ⟨s', hs', hb⟩ := hI s hs
      rcases hrun : (body s).run n with _ | (e | (s'' | v))
      · simp [loopRun, hrun] at hn
      · exact absurd (hb.unique ⟨n, hrun⟩) (by simp)
      · obtain rfl : s' = s'' := by simpa using hb.unique ⟨n, hrun⟩
        exact ih hs' (by simpa [loopRun, hrun] using hn)
      · exact absurd (hb.unique ⟨n, hrun⟩) (by simp)

/-! ### Recursion -/

/-- Whatever outcome `c` has with a bound up to `n`, `d` has it with the same bound. -/
def LeUpTo (n : ℕ) (c d : Comp ε α) : Prop :=
  ∀ k ≤ n, ∀ r, c.run k = some r → d.run k = some r

lemma LeUpTo.refl (n : ℕ) (c : Comp ε α) : LeUpTo n c c := fun _ _ _ h => h

lemma LeUpTo.bind {n : ℕ} {c d : Comp ε α} {f g : α → Comp ε β} (h : LeUpTo n c d)
    (hf : ∀ a, LeUpTo n (f a) (g a)) : LeUpTo n (c >>= f) (d >>= g) := by
  intro k hk r hr
  change (andThen c f).run k = _ at hr
  show (andThen d g).run k = _
  rcases hc : c.run k with _ | (e | a)
  · simp [andThen, hc] at hr
  · simpa [andThen, hc, h k hk _ hc] using hr
  · simp only [andThen, hc] at hr
    simpa only [andThen, h k hk _ hc] using hf a k hk r hr

/-- A function body that makes recursive calls, and whose outcome comes from the outcomes
of the calls. -/
structure RecBody (ε α β : Type) where
  body : (α → Comp ε β) → α → Comp ε β
  le : ∀ {f g : α → Comp ε β} {n : ℕ}, (∀ a, LeUpTo n (f a) (g a)) →
    ∀ a, LeUpTo n (body f a) (body g a)

namespace RecBody

/-- The function with calls nested up to the given depth. -/
def upTo (b : RecBody ε α β) : ℕ → α → Comp ε β
  | 0, _ => ⟨fun _ => none, fun _ h => h⟩
  | n + 1, a => b.body (b.upTo n) a

lemma upTo_mono (b : RecBody ε α β) {m n : ℕ} (hmn : m ≤ n) (k : ℕ) (a : α) :
    LeUpTo k (b.upTo m a) (b.upTo n a) := by
  induction m generalizing n a with
  | zero => exact fun _ _ _ h => by simp [upTo] at h
  | succ m ih =>
      obtain ⟨n, rfl⟩ : ∃ j, n = j + 1 := ⟨n - 1, by omega⟩
      exact b.le (fun a' => ih (by omega) a') a

end RecBody

/-- The recursive function with the given body. -/
def recur (b : RecBody ε α β) (a : α) : Comp ε β where
  run n := (b.upTo n a).run n
  mono {m n r} hmn h := (b.upTo n a).mono hmn (b.upTo_mono hmn m a m (Nat.le_refl m) r h)

/-- What the body does with the recursive calls is what the function does. -/
lemma Ends.recur {b : RecBody ε α β} {a : α} {r : Except ε β}
    (h : (b.body (Comp.recur b) a).Ends r) : (Comp.recur b a).Ends r := by
  obtain ⟨n, hn⟩ := h
  have hle : ∀ a', LeUpTo n (Comp.recur b a') (b.upTo n a') := by
    intro a' k hk r' hr'
    exact b.upTo_mono hk k a' k (Nat.le_refl k) r' hr'
  refine ⟨n + 1, ?_⟩
  exact (b.upTo (n + 1) a).mono (Nat.le_succ n) (b.le hle a n (Nat.le_refl n) r hn)

end Comp

end DemoClass
