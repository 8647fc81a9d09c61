import DemoClass.KernelList.Joseph
import DemoClass.Lib.Survivor

/-!
# The place of the last node (`joesph.c`)

`joesph_loop` prints the node that is left.  Its place in the list that was given follows from
`start`, `step` and the number of nodes alone: it is the survivor's place in a circle of that many
members, moved on by `start - 1`.
-/

namespace DemoClass

namespace Links

variable {ι : Type} [DecidableEq ι] {l : Links ι} {head : ι} {xs : List ι} {start step : ℕ}

/-- **Where the last node was.** -/
theorem joesphLoop_survivor (hr : l.Ring head xs) (hstart : 1 ≤ start) (hle : start ≤ xs.length)
    (hstep : 2 ≤ step) (hlt : step * xs.length < 2 ^ 64) :
    ∃ s y, (joesphLoop head start step l).Ends (.ok (s, y)) ∧
      xs[(survivor step xs.length + (start - 1)) % xs.length]? = some y := by
  obtain ⟨us, x, ys, rfl, rfl⟩ := exists_start hstart hle
  obtain ⟨s, y, hends, hring, horder⟩ := joesphBody_loop_ends hr hstep hlt
  refine ⟨s, y, ?_, ?_⟩
  · have hy : s.links.next head = y := hring.next_head
    rw [← hy]
    exact joesphLoop_of_loop hr hends
  · have hrot : (us ++ x :: ys).rotate us.length = x :: ys ++ us :=
      List.rotate_append_length_eq us (x :: ys)
    have hplace : survivor step (us ++ x :: ys).length < (us ++ x :: ys).length :=
      survivor_lt step (by omega)
    calc (us ++ x :: ys)[(survivor step (us ++ x :: ys).length + (us.length + 1 - 1)) %
          (us ++ x :: ys).length]?
        = ((us ++ x :: ys).rotate us.length)[survivor step (us ++ x :: ys).length]? := by
          rw [List.getElem?_rotate hplace, Nat.add_sub_cancel]
      _ = (x :: ys ++ us)[survivor step (x :: ys ++ us).length]? := by
          rw [hrot, ← hrot, List.length_rotate]
      _ = some y := by
          rw [← getLast?_josephus (by omega) (x :: ys ++ us) (List.cons_ne_nil x (ys ++ us)),
            horder, List.getLast?_concat]

/-- The nine nodes of `main`, with `start` and `step` both 4: the fourth one is left. -/
theorem joesphLoop_survivor_main :
    ∃ s, (joesphLoop 0 4 4 ⟨fun i => (i + 1) % 10, fun i => (i + 9) % 10⟩ :
        Comp JosephFault (Joseph ℕ × ℕ)).Ends (.ok (s, 4)) := by
  have hr : Ring ⟨fun i => (i + 1) % 10, fun i => (i + 9) % 10⟩ 0 [1, 2, 3, 4, 5, 6, 7, 8, 9] :=
    ⟨by decide, by simp [Adj]⟩
  obtain ⟨s, y, hends, hy⟩ := @joesphLoop_survivor ℕ _ _ 0 _ 4 4 hr (by decide) (by decide)
    (by decide) (by decide)
  have hfour : y = 4 := by
    have hplace : [1, 2, 3, 4, 5, 6, 7, 8, 9][(survivor 4 9 + (4 - 1)) % 9]? = some 4 := rfl
    rw [show List.length [1, 2, 3, 4, 5, 6, 7, 8, 9] = 9 from rfl, hplace] at hy
    exact (Option.some.inj hy).symm
  rw [hfour] at hends
  exact ⟨s, hends⟩

end Links

end DemoClass
