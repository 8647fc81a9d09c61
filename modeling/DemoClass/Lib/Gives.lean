import DemoClass.Lib.Comp

/-!
# Computations against their outcome on values

`Comp.Gives R c x` says that the computation `c` ends as `x` does, which is told on values and
without bounds on loops: with the same fault, or with a value that is related by `R`.  It is put
together along `>>=` (`Gives.bind`), and along a list of inputs that are admissible one after the
other (`Gives.foldlM`).
-/

namespace DemoClass

namespace Comp

variable {ε α β α' β' ι : Type} {R : α → β → Prop} {Q : α' → β' → Prop}

/-- The computation ends as the outcome on the values does. -/
def Gives (R : α → β → Prop) (c : Comp ε α) : Except ε β → Prop
  | .error e => c.Ends (.error e)
  | .ok v => ∃ u, c.Ends (.ok u) ∧ R u v

/-- Every input is admissible where those in front of it lead to. -/
def Admits (g : β → ι → Except ε β) (adm : β → ι → Prop) : List ι → β → Prop
  | [], _ => True
  | a :: as, b => adm b a ∧ ∀ b', g b a = .ok b' → Admits g adm as b'

lemma Gives.bind {c : Comp ε α} {x : Except ε β} {k : α → Comp ε α'} {l : β → Except ε β'}
    (h : c.Gives R x) (hk : ∀ u v, R u v → x = .ok v → (k u).Gives Q (l v)) :
    (c >>= k).Gives Q (x >>= l) := by
  cases x with
  | error e => exact Ends.bind_fault h
  | ok v =>
      obtain ⟨u, hu, hR⟩ := h
      have hrest := hk u v hR rfl
      show (c >>= k).Gives Q (l v)
      cases hl : l v with
      | error e =>
          rw [hl] at hrest
          exact hu.bind hrest
      | ok w =>
          rw [hl] at hrest
          obtain ⟨u', hu', hQ⟩ := hrest
          exact ⟨u', hu.bind hu', hQ⟩

lemma gives_pure {u : α} {v : β} (h : R u v) : (pure u : Comp ε α).Gives R (.ok v) :=
  ⟨u, ends_pure.2 rfl, h⟩

/-- The faults are the same. -/
lemma Gives.ends_error_iff {c : Comp ε α} {x : Except ε β} {e : ε} (h : c.Gives R x) :
    c.Ends (.error e) ↔ x = .error e := by
  cases x with
  | error e' =>
      refine ⟨fun he => ?_, fun he => ?_⟩
      · obtain rfl : e' = e := by simpa using Ends.unique h he
        rfl
      · obtain rfl : e' = e := by simpa using he
        exact h
  | ok v =>
      obtain ⟨u, hu, -⟩ := h
      refine iff_of_false (fun he => ?_) fun he => ?_
      · cases hu.unique he
      · cases he

/-- A computation that ends with the outcome itself. -/
lemma gives_eq_iff {c : Comp ε α} {x : Except ε α} : c.Gives Eq x ↔ c.Ends x := by
  cases x with
  | error e => exact Iff.rfl
  | ok v =>
      constructor
      · rintro ⟨u, hu, rfl⟩
        exact hu
      · exact fun h => ⟨v, h, rfl⟩

lemma Ends.gives_bind {c : Comp ε α} {x : Except ε α} {k : α → Comp ε α'} {l : α → Except ε β'}
    (h : c.Ends x) (hk : ∀ v, x = .ok v → (k v).Gives Q (l v)) : (c >>= k).Gives Q (x >>= l) :=
  (gives_eq_iff.2 h).bind fun u _ huv hx => huv ▸ hk u (huv ▸ hx)

lemma Ends.bind_except {c : Comp ε α} {x : Except ε α} {k : α → Comp ε β} {l : α → Except ε β}
    (h : c.Ends x) (hk : ∀ v, x = .ok v → (k v).Ends (l v)) : (c >>= k).Ends (x >>= l) :=
  gives_eq_iff.1 (h.gives_bind fun v hx => gives_eq_iff.2 (hk v hx))

/-- **Step by step.**  What gives the outcome of each input gives the outcome of all. -/
theorem Gives.foldlM {f : α → ι → Comp ε α} {g : β → ι → Except ε β} {adm : β → ι → Prop}
    (hstep : ∀ u v a, R u v → adm v a → (f u a).Gives R (g v a)) {as : List ι} {u : α} {v : β}
    (h : R u v) (has : Admits g adm as v) : (as.foldlM f u).Gives R (as.foldlM g v) := by
  induction as generalizing u v with
  | nil => exact gives_pure h
  | cons a as ih =>
      rw [List.foldlM_cons, List.foldlM_cons]
      exact (hstep u v a h has.1).bind fun u' v' h' hv' => ih h' (has.2 v' hv')

end Comp

/-! ### Outcomes on values -/

section Except

variable {ε α β ι : Type} {e : ε}

lemma bind_eq_error_iff {x : Except ε α} {k : α → Except ε β} :
    (x >>= k) = .error e ↔ x = .error e ∨ ∃ v, x = .ok v ∧ k v = .error e := by
  cases x with
  | error e' =>
      constructor
      · exact fun h => Or.inl (congrArg Except.error (Except.error.inj h))
      · rintro (h | ⟨v, hv, -⟩)
        · rw [h]
          rfl
        · cases hv
  | ok v =>
      constructor
      · exact fun h => Or.inr ⟨v, rfl, h⟩
      · rintro (h | ⟨v', hv, h⟩)
        · cases h
        · obtain rfl := Except.ok.inj hv
          exact h

lemma bind_eq_ok_iff {x : Except ε α} {k : α → Except ε β} {w : β} :
    (x >>= k) = .ok w ↔ ∃ v, x = .ok v ∧ k v = .ok w := by
  cases x with
  | error e' =>
      refine iff_of_false (fun h => nomatch h) ?_
      rintro ⟨v, hv, -⟩
      cases hv
  | ok v =>
      constructor
      · exact fun h => ⟨v, rfl, h⟩
      · rintro ⟨v', hv, h⟩
        obtain rfl := Except.ok.inj hv
        exact h

lemma bind_ne_error {x : Except ε α} {k : α → Except ε β} (hx : x ≠ .error e)
    (hk : ∀ v, k v ≠ .error e) : (x >>= k) ≠ .error e := by
  rw [Ne, bind_eq_error_iff]
  rintro (h | ⟨v, -, h⟩)
  · exact hx h
  · exact hk v h

lemma mapM_ne_error {f : ι → Except ε α} (hf : ∀ a, f a ≠ .error e) (as : List ι) :
    as.mapM f ≠ .error e := by
  induction as with
  | nil => exact fun h => nomatch h
  | cons a as ih =>
      rw [List.mapM_cons]
      exact bind_ne_error (hf a) fun _ => bind_ne_error ih fun _ h => nomatch h

lemma findM?_ne_error {p : ι → Except ε Bool} (hp : ∀ a, p a ≠ .error e) (as : List ι) :
    as.findM? p ≠ .error e := by
  induction as with
  | nil => exact fun h => nomatch h
  | cons a as ih =>
      refine bind_ne_error (hp a) fun c => ?_
      cases c with
      | true => exact fun h => nomatch h
      | false => exact ih

/-- A fault is the fault of one of the inputs, behind some that have none. -/
lemma foldlM_eq_error_iff {g : β → ι → Except ε β} {as : List ι} {b : β} :
    as.foldlM g b = .error e ↔ ∃ pre a post b', as = pre ++ a :: post ∧
      pre.foldlM g b = .ok b' ∧ g b' a = .error e := by
  induction as generalizing b with
  | nil =>
      refine iff_of_false (fun h => nomatch h) ?_
      rintro ⟨pre, a, post, b', hnil, -⟩
      simp at hnil
  | cons a as ih =>
      rw [List.foldlM_cons, bind_eq_error_iff]
      simp only [ih]
      constructor
      · rintro (hb | ⟨b₁, hb, pre, a', post, b', rfl, hpre, ha'⟩)
        · exact ⟨[], a, as, b, rfl, rfl, hb⟩
        · refine ⟨a :: pre, a', post, b', rfl, ?_, ha'⟩
          rw [List.foldlM_cons, hb]
          exact hpre
      · rintro ⟨pre, a', post, b', heq, hpre, ha'⟩
        cases pre with
        | nil =>
            obtain ⟨rfl, rfl⟩ := List.cons.inj heq
            obtain rfl := Except.ok.inj hpre
            exact Or.inl ha'
        | cons a₁ pre =>
            obtain ⟨rfl, rfl⟩ := List.cons.inj heq
            rw [List.foldlM_cons, bind_eq_ok_iff] at hpre
            obtain ⟨b₁, hb, hpre⟩ := hpre
            exact Or.inr ⟨b₁, hb, pre, a', post, b', rfl, hpre, ha'⟩

end Except

end DemoClass
