import DemoClass.Lib.Comp

/-!
# Sequences of calls

The functions of a data structure, called one after the other, against a machine that says what
they are for.  A call may need something of its surroundings, such as an address that is not in
use, in the state it is made in (`Provided`).  `Refines.calls`: when every call does what the
machine does, every sequence of calls gives the machine's results.
-/

namespace DemoClass

namespace Calls

variable {ε γ σ α ρ : Type}

/-- The state behind the calls, and their results. -/
def calls (call : γ → σ → Comp ε (σ × ρ)) : List γ → σ → Comp ε (σ × List ρ)
  | [], s => pure (s, [])
  | c :: cs, s => do
    let r ← call c s
    let rs ← calls call cs r.1
    pure (rs.1, r.2 :: rs.2)

/-- The same for the machine. -/
def expected (spec : γ → α → α × ρ) : List γ → α → α × List ρ
  | [], a => (a, [])
  | c :: cs, a =>
    ((expected spec cs (spec c a).1).1, (spec c a).2 :: (expected spec cs (spec c a).1).2)

/-- Every call has what it needs in the state it is made in. -/
def Provided (call : γ → σ → Comp ε (σ × ρ)) (needs : γ → σ → Prop) : List γ → σ → Prop
  | [], _ => True
  | c :: cs, s => needs c s ∧ ∀ r, (call c s).Ends (.ok r) → Provided call needs cs r.1

/-- A call that has what it needs ends with the machine's result, and keeps the states related. -/
def Refines (call : γ → σ → Comp ε (σ × ρ)) (needs : γ → σ → Prop) (spec : γ → α → α × ρ)
    (R : σ → α → Prop) : Prop :=
  ∀ c s a, R s a → needs c s →
    ∃ s', (call c s).Ends (.ok (s', (spec c a).2)) ∧ R s' (spec c a).1

variable {call : γ → σ → Comp ε (σ × ρ)} {needs : γ → σ → Prop} {spec : γ → α → α × ρ}
  {R : σ → α → Prop} {s : σ} {a : α}

lemma Provided.cons {c : γ} {cs : List γ} {r : σ × ρ} (hc : needs c s)
    (hcall : (call c s).Ends (.ok r)) (h : Provided call needs cs r.1) :
    Provided call needs (c :: cs) s :=
  ⟨hc, fun _ hr => Except.ok.inj (hr.unique hcall) ▸ h⟩

/-- **Refinement of runs.** -/
theorem Refines.calls (h : Refines call needs spec R) (cs : List γ) (hR : R s a)
    (hp : Provided call needs cs s) :
    ∃ s', (calls call cs s).Ends (.ok (s', (expected spec cs a).2)) ∧
      R s' (expected spec cs a).1 := by
  induction cs generalizing s a with
  | nil => exact ⟨s, Comp.ends_pure.2 rfl, hR⟩
  | cons c cs ih =>
      obtain ⟨s₁, hcall, hR₁⟩ := h c s a hR hp.1
      obtain ⟨s₂, hcalls, hR₂⟩ := ih hR₁ (hp.2 _ hcall)
      exact ⟨s₂, hcall.bind (hcalls.bind (Comp.ends_pure.2 rfl)), hR₂⟩

end Calls

end DemoClass
