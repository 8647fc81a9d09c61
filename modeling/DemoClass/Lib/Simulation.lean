import DemoClass.Lib.Comp

/-!
# Simulations between computations

A computation over a memory, against one over the values that the memory stands for.
`Comp.Simulates g R c d` says that whatever the outcome of `d`, the concrete `c` has the outcome
that corresponds to it: a value related by `R`, or the fault that `g` makes of the fault; and that
`c` runs forever when `d` does.  Simulations are put together along `>>=` (`Simulates.bind`) and
along loops (`Simulates.loop`), and what only the concrete side does is done away with by
`Ends.simulates`.
-/

namespace DemoClass

namespace Comp

variable {ε δ α β α' β' σ τ : Type}

/-- The same computation, with its faults among those of a larger program. -/
def mapFault (g : δ → ε) (c : Comp δ α) : Comp ε α where
  run n := (c.run n).map (Except.mapError g)
  mono := by
    intro m n r hmn h
    obtain ⟨r', hr', rfl⟩ := Option.map_eq_some_iff.1 h
    rw [c.mono hmn hr', Option.map_some]

/-- `c` has the outcome that corresponds to the one of `d`. -/
structure Simulates (g : δ → ε) (R : α → β → Prop) (c : Comp ε α) (d : Comp δ β) : Prop where
  ok : ∀ v, d.Ends (.ok v) → ∃ u, c.Ends (.ok u) ∧ R u v
  fault : ∀ e, d.Ends (.error e) → c.Ends (.error (g e))
  halts : c.Halts → d.Halts

variable {g : δ → ε} {R : α → β → Prop} {Q : α' → β' → Prop} {c : Comp ε α} {d : Comp δ β}
  {k : α → Comp ε α'} {l : β → Comp δ β'}

lemma mapFault_ends {r : Except δ α} {c : Comp δ α} (h : c.Ends r) :
    (c.mapFault g).Ends (r.mapError g) := by
  obtain ⟨n, hn⟩ := h
  exact ⟨n, Option.map_eq_some_iff.2 ⟨r, hn, rfl⟩⟩

lemma mapFault_ends_ok {v : α} {c : Comp δ α} (h : c.Ends (.ok v)) :
    (c.mapFault g).Ends (.ok v) := mapFault_ends h

namespace Simulates

lemma of_ends {u : α} {v : β} (hc : c.Ends (.ok u)) (hd : d.Ends (.ok v)) (h : R u v) :
    Simulates g R c d where
  ok v' hv' := by
    obtain rfl : v = v' := by simpa using hd.unique hv'
    exact ⟨u, hc, h⟩
  fault e he := absurd (hd.unique he) (by simp)
  halts _ := hd.halts

lemma pure {u : α} {v : β} (h : R u v) : Simulates g R (Pure.pure u) (Pure.pure v) :=
  of_ends (ends_pure.2 rfl) (ends_pure.2 rfl) h

lemma mapFault (c : Comp δ α) : Simulates g Eq (c.mapFault g) c where
  ok v hv := ⟨v, mapFault_ends_ok hv, rfl⟩
  fault _ he := mapFault_ends he
  halts := by
    rintro ⟨r, n, hn⟩
    obtain ⟨r', hr', -⟩ := Option.map_eq_some_iff.1 hn
    exact ⟨r', n, hr'⟩

/-- One after the other. -/
lemma bind (h : Simulates g R c d) (hk : ∀ u v, R u v → Simulates g Q (k u) (l v)) :
    Simulates g Q (c >>= k) (d >>= l) where
  ok w hw := by
    obtain ⟨v, hv, hl⟩ := ends_bind_ok_iff.1 hw
    obtain ⟨u, hu, huv⟩ := h.ok v hv
    obtain ⟨w', hw', hq⟩ := (hk u v huv).ok w hl
    exact ⟨w', hu.bind hw', hq⟩
  fault e he := by
    rcases ends_bind_iff.1 he with ⟨v, hv, hl⟩ | ⟨e', he', heq⟩
    · obtain ⟨u, hu, huv⟩ := h.ok v hv
      exact hu.bind ((hk u v huv).fault e hl)
    · obtain rfl : e = e' := by simpa using heq
      exact (h.fault e he').bind_fault
  halts := by
    rintro ⟨r, hr⟩
    obtain ⟨e | v, hd⟩ := h.halts hr.of_bind
    · exact hd.bind_fault.halts
    · obtain ⟨u, hu, huv⟩ := h.ok v hd
      have hrest : (k u).Halts := ⟨r, hu.bind_iff.1 hr⟩
      exact hd.bind_halts_iff.2 ((hk u v huv).halts hrest)

lemma mono {R' : α → β → Prop} (h : Simulates g R c d) (hR : ∀ u v, R u v → R' u v) :
    Simulates g R' c d where
  ok v hv := by
    obtain ⟨u, hu, huv⟩ := h.ok v hv
    exact ⟨u, hu, hR u v huv⟩
  fault := h.fault
  halts := h.halts

/-- The outcome of `d` is the one that corresponds to the outcome of `c`. -/
lemma of_ok {u : α} (h : Simulates g R c d) (hc : c.Ends (.ok u)) :
    ∃ v, d.Ends (.ok v) ∧ R u v := by
  obtain ⟨e | v, hd⟩ := h.halts hc.halts
  · exact absurd ((h.fault e hd).unique hc) (by simp)
  · obtain ⟨u', hu', huv⟩ := h.ok v hd
    obtain rfl : u' = u := by simpa using hu'.unique hc
    exact ⟨v, hd, huv⟩

end Simulates

/-- What only the concrete side does at first. -/
lemma Ends.simulates {u : α} {d : Comp δ β'} (hc : c.Ends (.ok u)) (h : Simulates g Q (k u) d) :
    Simulates g Q (c >>= k) d where
  ok v hv := by
    obtain ⟨w, hw, hq⟩ := h.ok v hv
    exact ⟨w, hc.bind hw, hq⟩
  fault e he := hc.bind (h.fault e he)
  halts hr := h.halts (hc.bind_halts_iff.1 hr)

/-! ### Loops -/

/-- Both rounds go on, or both leave the loop. -/
def RoundRel (R : σ → τ → Prop) (Q : α → β → Prop) : σ ⊕ α → τ ⊕ β → Prop
  | .inl s, .inl t => R s t
  | .inr u, .inr v => Q u v
  | _, _ => False

variable {R : σ → τ → Prop} {Q : α → β → Prop} {body : σ → Comp ε (σ ⊕ α)}
  {body' : τ → Comp δ (τ ⊕ β)}

/-- Rounds that continue have a counterpart. -/
lemma Iterates.simulated (hbody : ∀ s t, R s t → Simulates g (RoundRel R Q) (body s) (body' t))
    {n : ℕ} {s : σ} {t t' : τ} (h : Iterates body' n t t') (hR : R s t) :
    ∃ s', Iterates body n s s' ∧ R s' t' := by
  induction h generalizing s with
  | refl t => exact ⟨s, .refl s, hR⟩
  | step hb _ ih =>
      obtain ⟨s₁ | v, hs₁, hrel⟩ := (hbody _ _ hR).ok _ hb
      · obtain ⟨s', hs', hR'⟩ := ih hrel
        exact ⟨s', .step hs₁ hs', hR'⟩
      · exact hrel.elim

lemma Iterates.simulates (hbody : ∀ s t, R s t → Simulates g (RoundRel R Q) (body s) (body' t))
    {n : ℕ} {s s' : σ} {t : τ} (h : Iterates body n s s') (hR : R s t) :
    ∃ t', Iterates body' n t t' ∧ R s' t' := by
  induction h generalizing t with
  | refl s => exact ⟨t, .refl t, hR⟩
  | step hb _ ih =>
      obtain ⟨t₁ | v, ht₁, hrel⟩ := (hbody _ _ hR).of_ok hb
      · obtain ⟨t', ht', hR'⟩ := ih hrel
        exact ⟨t', .step ht₁ ht', hR'⟩
      · exact hrel.elim

/-- **Simulation of loops**: round by round. -/
theorem Simulates.loop (hbody : ∀ s t, R s t → Simulates g (RoundRel R Q) (body s) (body' t))
    {s : σ} {t : τ} (hR : R s t) : Simulates g Q (loop body s) (loop body' t) where
  ok v hv := by
    obtain ⟨n, t', hn, ht'⟩ := loop_ends_ok_iff.1 hv
    obtain ⟨s', hs', hR'⟩ := hn.simulated hbody hR
    obtain ⟨s'' | u, hu, hrel⟩ := (hbody _ _ hR').ok _ ht'
    · exact hrel.elim
    · exact ⟨u, loop_ends_ok_iff.2 ⟨n, s', hs', hu⟩, hrel⟩
  fault e he := by
    obtain ⟨n, t', hn, ht'⟩ := loop_ends_error_iff.1 he
    obtain ⟨s', hs', hR'⟩ := hn.simulated hbody hR
    exact loop_ends_error_iff.2 ⟨n, s', hs', (hbody _ _ hR').fault e ht'⟩
  halts := by
    rintro ⟨r, hr⟩
    obtain ⟨n, s', hn, hend⟩ := loop_ends_iff_iterates.1 hr
    obtain ⟨t', ht', hR'⟩ := hn.simulates hbody hR
    have hhalts : (body s').Halts := by
      rcases hend with ⟨v, hv, -⟩ | ⟨e, he, -⟩
      · exact hv.halts
      · exact he.halts
    obtain ⟨e | t'' | v, hd⟩ := (hbody _ _ hR').halts hhalts
    · exact (loop_ends_error_iff.2 ⟨n, t', ht', hd⟩).halts
    · -- the concrete round would go on as well
      obtain ⟨s'' | u, hs'', hrel⟩ := (hbody _ _ hR').ok _ hd
      · rcases hend with ⟨v, hv, -⟩ | ⟨e, he, -⟩
        · exact absurd (hs''.unique hv) (by simp)
        · exact absurd (hs''.unique he) (by simp)
      · exact hrel.elim
    · exact (loop_ends_ok_iff.2 ⟨n, t', ht', hd⟩).halts

end Comp

end DemoClass
