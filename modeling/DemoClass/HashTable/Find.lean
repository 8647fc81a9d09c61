import DemoClass.HashTable.HashTable
import DemoClass.Lib.Cursor

/-!
# What `hash_find` finds

`hash_find` walks over the ring of the bucket of the key, from behind `cur` when
`cur` compares equal to the key and from the head otherwise.  When a `cur` that
compares equal is in that ring, the result is the next match after the cursor
(`hashFind_ends`).  Nothing is said here of a `cur` that compares equal and is
elsewhere: the walk then goes round a ring that does not have the head at which it
would stop.
-/

namespace DemoClass

namespace HashTable

open Links

variable {ι : Type} [DecidableEq ι] {info : Hashtable ι} {l : Links ι} {key h c : ι}
  {cur : Option ι} {xs us ys cs : List ι}

/-- The walk over the rest of a ring. -/
lemma findWalk_ends (hr : l.Ring h (us ++ ys)) (cs : List ι) : ∃ ds, ds ⊆ ys ∧
    (forEachFrom (fun _ => l.next) (hashFindBody info key) h (ys.headD h) cs).Ends
      (.ok (match ys.find? (info.hashCmp · key) with
        | none => .inl (cs ++ ds)
        | some x => .inr (x, cs ++ ds))) := by
  induction ys generalizing us cs with
  | nil => exact ⟨[], by simp, by simpa using forEachFrom_head⟩
  | cons y ys ih =>
      have hne : y ≠ h := fun he => hr.head_notMem (he ▸ by simp)
      by_cases hy : info.hashCmp y key = true
      · refine ⟨[y], by simp, ?_⟩
        simp only [List.find?_cons_of_pos (p := (info.hashCmp · key)) hy]
        exact forEachFrom_inr hne (by simp [hashFindBody, hy])
      · have hr' : l.Ring h ((us ++ [y]) ++ ys) := by simpa using hr
        obtain ⟨ds, hds, hends⟩ := ih hr' (cs ++ [y])
        refine ⟨y :: ds, List.cons_subset_cons y hds, ?_⟩
        simp only [List.find?_cons_of_neg (p := (info.hashCmp · key)) hy]
        have hb : (hashFindBody info key y cs).Ends (.ok (.inl (cs ++ [y]))) := by
          simp [hashFindBody, hy]
        refine forEachFrom_inl hne hb ?_
        rw [List.headD_cons, hr.next_mem]
        simpa only [List.append_assoc, List.singleton_append] using hends

/-- From the walk to what `hash_find` returns. -/
lemma hashFind_of_walk (hr : l.Ring (info.headOf key) (us ++ ys))
    (hstart : hashFindStart info key cur = (us.getLastD (info.headOf key), cs)) :
    ∃ f, (hashFind info l cur key).Ends (.ok f) ∧ f.ret = ys.find? (info.hashCmp · key) ∧
      f.cur = some (f.ret.getD (info.headOf key)) ∧ (∀ c ∈ cs, c ∈ f.compared) ∧
      ∀ a ∈ f.compared, a ∈ cs ∨ a ∈ ys := by
  obtain ⟨ds, hds, hends⟩ := findWalk_ends hr cs
  have hwalk := hends
  rw [← show l.next _ = _ from hr.adj.1] at hwalk
  refine ⟨⟨ys.find? (info.hashCmp · key), some ((ys.find? (info.hashCmp · key)).getD
    (info.headOf key)), cs ++ ds⟩, ?_, rfl, rfl, fun c hc => List.mem_append_left _ hc, ?_⟩
  · rw [hashFind, hstart]
    refine Comp.Ends.bind hwalk ?_
    cases ys.find? (info.hashCmp · key) <;> simp
  · intro a ha
    rcases List.mem_append.1 ha with ha | ha
    · exact Or.inl ha
    · exact Or.inr (hds ha)

/-- **`hash_find` finds the next match.** -/
theorem hashFind_ends (hr : l.Ring (info.headOf key) xs)
    (hcur : ∀ c, cur = some c → info.hashCmp c key = true → c ∈ xs) :
    ∃ f, (hashFind info l cur key).Ends (.ok f) ∧
      f.ret = Cursor.next (info.hashCmp · key) xs cur ∧
      f.cur = some (f.ret.getD (info.headOf key)) ∧ (∀ c, cur = some c → c ∈ f.compared) ∧
      ∀ a ∈ f.compared, cur = some a ∨ a ∈ xs := by
  have hr' : l.Ring (info.headOf key) ([] ++ xs) := hr
  cases cur with
  | none =>
      obtain ⟨f, hf, hret, hfcur, -, hsub⟩ := hashFind_of_walk hr'
        (show hashFindStart info key none = (info.headOf key, []) from rfl)
      exact ⟨f, hf, hret, hfcur, by simp, fun a ha => by simpa using hsub a ha⟩
  | some c =>
      by_cases hc : info.hashCmp c key = true
      · obtain ⟨us, ys, rfl⟩ := List.append_of_mem (hcur c rfl hc)
        have hr'' : l.Ring (info.headOf key) ((us ++ [c]) ++ ys) := by simpa using hr
        have hn : (us ++ c :: ys).Nodup := (List.nodup_cons.1 hr.nodup).2
        have hstart : hashFindStart info key (some c) =
            ((us ++ [c]).getLastD (info.headOf key), [c]) := by simp [hashFindStart, hc]
        obtain ⟨f, hf, hret, hfcur, hmem, hsub⟩ := hashFind_of_walk hr'' hstart
        refine ⟨f, hf, ?_, hfcur, fun a ha => hmem a (by simpa using ha.symm), fun a ha => ?_⟩
        · rw [hret, Cursor.next_append (p := (info.hashCmp · key)) hc hn]
        · rcases hsub a ha with ha | ha
          · exact Or.inl (by simpa using (List.mem_singleton.1 ha).symm)
          · exact Or.inr (List.mem_append_right _ (List.mem_cons_of_mem _ ha))
      · have hstart : hashFindStart info key (some c) = (info.headOf key, [c]) := by
          simp [hashFindStart, hc]
        obtain ⟨f, hf, hret, hfcur, hmem, hsub⟩ := hashFind_of_walk hr' hstart
        refine ⟨f, hf, ?_, hfcur, fun a ha => hmem a (by simpa using ha.symm), fun a ha => ?_⟩
        · rw [hret, Cursor.next_of_off (p := (info.hashCmp · key))]
          rintro _ ⟨⟩
          simpa using hc
        · rcases hsub a ha with ha | ha
          · exact Or.inl (by simpa using (List.mem_singleton.1 ha).symm)
          · exact Or.inr ha

end HashTable

end DemoClass
