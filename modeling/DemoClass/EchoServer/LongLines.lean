import DemoClass.EchoServer.Jammed
import Mathlib.Algebra.Order.BigOperators.Group.Finset
import Mathlib.Data.List.TakeWhile

/-!
# How many clients the echo service can have

For every client there is at most one message on its way, and none is longer than the longest line
that `fgets` reads.  So the service comes to where it cannot go on right just when the longest
messages of all clients do not fit into the queue together (`exists_jammed_iff`): with the 16384
bytes that a queue has, four clients never come there, and five can.
-/

namespace DemoClass

namespace EchoServer

open MsgQueue Runs

variable {κ : Type} {qbytes : ℕ} {typ : κ → ℕ} {s s' : System κ} {k : κ} {a : Action κ}
  {o : List (Reply κ)} {text : List Byte}

section

variable [DecidableEq κ]

/-! ### The messages on their way -/

/-- No message is longer than what a client can send. -/
def System.Short (s : System κ) : Prop := ∀ q ∈ s.flight, q.size ≤ bufSize - 1

omit [DecidableEq κ] in
lemma length_of_mem_texts {stdin : List Byte} (h : text ∈ texts stdin) :
    text.length + 1 ≤ bufSize - 1 := by
  induction hn : stdin.length using Nat.strongRecOn generalizing stdin with
  | ind n ih =>
      cases hf : fgets (bufSize - 1) stdin with
      | none =>
          rw [texts_of_none hf] at h
          cases h
      | some r =>
          obtain ⟨line, rest⟩ := r
          have hline := fgets_length hf
          have hlt := fgets_length_lt (by decide) hf
          rw [texts_of_some hf] at h
          split_ifs at h
          · cases h
          · rcases List.mem_cons.1 h with rfl | h
            · have hle := (List.takeWhile_sublist (p := fun c : Byte => decide (c ≠ 0))
                (l := line)).length_le
              unfold bufSize at hline ⊢
              omega
            · exact ih _ (hn ▸ hlt) h rfl

lemma System.Short.of_step (hpos : ∀ k, 0 < typ k) (h : Inv typ s) (hshort : s.Short)
    (hs : step typ s a = some (s', o)) : s'.Short := by
  intro q hq
  cases a with
  | line k =>
      obtain ⟨-, -, c, ⟨rfl, -⟩ | ⟨text, rfl, -, -, htexts⟩⟩ := line_cases hpos hs
      · exact hshort q hq
      · rcases List.mem_append.1 hq with hq | hq
        · exact hshort q (List.mem_append_left _ hq)
        · rcases List.mem_append.1 hq with hq | hq
          · exact hshort q (List.mem_append_right _ hq)
          · obtain rfl := List.mem_singleton.1 hq
            have hle : text.length + 1 ≤ bufSize - 1 :=
              length_of_mem_texts (htexts ▸ List.mem_cons_self)
            rwa [Queued.size, terminated, List.length_append, List.length_singleton]
  | receive k =>
      obtain ⟨-, p, rest, hr, he⟩ := receive_cases hs
      obtain ⟨rfl, -⟩ := Prod.mk.inj he
      rcases List.mem_append.1 hq with hq | hq
      · exact hshort q (List.mem_append_left _ hq)
      · exact hshort q (List.mem_append_right _ (receive_subset hr hq))
  | serve =>
      obtain ⟨-, hout, p, queue, m, hp, hsize, rfl⟩ := serve_cases h hs
      have hflight : s.flight = p :: queue := by rw [System.flight_none hout, hp]
      rcases List.mem_cons.1 hq with rfl | hq
      · exact hsize.trans_le (hshort p (hflight ▸ List.mem_cons_self))
      · exact hshort q (hflight ▸ List.mem_cons_of_mem p hq)
  | reply =>
      obtain ⟨-, m, hout, rfl⟩ := reply_cases h hs
      have hflight := System.flight_some hout
      refine hshort q ?_
      rw [hflight]
      rcases List.mem_append.1 (show q ∈ s.queue ++ [⟨.server, m⟩] from hq) with hq | hq
      · exact List.mem_cons_of_mem _ hq
      · exact List.mem_singleton.1 hq ▸ List.mem_cons_self

omit [DecidableEq κ] in
/-- Every message is counted by the client whose type it has. -/
lemma length_le_sum_ofType [Fintype κ] {qs : List (Queued κ)}
    (h : ∀ q ∈ qs, ∃ k, q.mtype = typ k) :
    qs.length ≤ ∑ k, (ofType Queued.mtype (typ k) qs).length := by
  induction qs with
  | nil => exact Nat.zero_le _
  | cons q qs ih =>
      obtain ⟨k, hk⟩ := h q List.mem_cons_self
      have hlt : ∑ k, (ofType Queued.mtype (typ k) qs).length <
          ∑ k, (ofType Queued.mtype (typ k) (q :: qs)).length := by
        refine Finset.sum_lt_sum (fun j _ => ?_) ⟨k, Finset.mem_univ k, ?_⟩
        · exact ((List.sublist_cons_self q qs).filter _).length_le
        · rw [ofType_cons_self hk]
          exact Nat.lt_succ_self _
      have hle := ih fun p hp => h p (List.mem_cons_of_mem q hp)
      rw [List.length_cons]
      omega

omit [DecidableEq κ] in
/-- There is at most one message on its way for every client. -/
lemma Inv.length_flight_le [Fintype κ] (h : Inv typ s) : s.flight.length ≤ Fintype.card κ := by
  refine (length_le_sum_ofType h.known).trans ?_
  rw [Fintype.card_eq_sum_ones]
  refine Finset.sum_le_sum fun k _ => ?_
  by_cases hpc : (s.client k).pc = .waiting
  · obtain ⟨-, -, q, -, hone, -⟩ := (h.exchange k).busy hpc
    rw [hone]
    exact Nat.le_refl 1
  · rw [(h.exchange k).idle hpc]
    exact Nat.zero_le 1

omit [DecidableEq κ] in
lemma sum_size_le {n : ℕ} {qs : List (Queued κ)} (h : ∀ q ∈ qs, q.size ≤ n) :
    (qs.map Queued.size).sum ≤ n * qs.length := by
  induction qs with
  | nil => exact Nat.zero_le _
  | cons q qs ih =>
      have hq := h q List.mem_cons_self
      have hle := ih fun p hp => h p (List.mem_cons_of_mem q hp)
      rw [List.map_cons, List.sum_cons, List.length_cons, Nat.mul_succ]
      omega

omit [DecidableEq κ] in
/-- The messages of all clients together are more than the queue holds. -/
lemma System.Jammed.lt [Fintype κ] (h : Inv typ s) (hshort : s.Short) (hjam : s.Jammed qbytes) :
    qbytes < (bufSize - 1) * Fintype.card κ := by
  obtain ⟨m, hout, hlt⟩ := hjam
  have hflight : (s.flight.map Queued.size).sum = m.mdata.length + s.cbytes := by
    rw [System.flight_some hout, List.map_cons, List.sum_cons]
    rfl
  have hle := sum_size_le hshort
  have hlower := lowerBytes_le s
  have hcard := Nat.mul_le_mul_left (bufSize - 1) h.length_flight_le
  omega

/-! ### The longest lines -/

/-- The longest line that `fgets` reads. -/
def longLine : List Byte := List.replicate (bufSize - 2) 97

/-- The request for the longest line. -/
def longRequest (typ : κ → ℕ) (k : κ) : Queued κ := ⟨.client k, ⟨typ k, terminated longLine⟩⟩

omit [DecidableEq κ] in
lemma size_longRequest (typ : κ → ℕ) (k : κ) : (longRequest typ k).size = bufSize - 1 := by
  rw [Queued.size, longRequest, terminated, longLine, List.length_append, List.length_replicate]
  rfl

omit [DecidableEq κ] in
lemma lower_longRequest (typ : κ → ℕ) (k : κ) : (longRequest typ k).lower = true := by
  have hlow : isLower 97 := by decide
  have hmem : (97 : Byte) ∈ terminated longLine :=
    List.mem_append_left _ (List.mem_replicate.2 ⟨by decide, rfl⟩)
  exact List.any_eq_true.2 ⟨97, hmem, decide_eq_true hlow⟩

lemma firstLine_of_notMem {cs : List Byte} (h : 10 ∉ cs) : firstLine cs = cs := by
  induction cs with
  | nil => rfl
  | cons c cs ih =>
      rw [List.mem_cons, not_or] at h
      rw [firstLine, if_neg (Ne.symm h.1), ih h.2]

lemma texts_longLine : texts longLine = [longLine] := by
  have hnotMem : ∀ c : Byte, c ≠ 97 → c ∉ longLine := by
    rintro c hc hmem
    exact hc (List.mem_replicate.1 hmem).2
  have hf : fgets (bufSize - 1) longLine = some (longLine, []) := by
    have hne : longLine ≠ [] := by
      intro hnil
      have hlen := congrArg List.length hnil
      rw [longLine, List.length_replicate] at hlen
      cases hlen
    have htake : longLine.take (bufSize - 1 - 1) = longLine := by
      rw [longLine]
      exact List.take_of_length_le (by rw [List.length_replicate]; rfl)
    simp only [fgets]
    rw [if_neg hne, htake, firstLine_of_notMem (hnotMem 10 (by decide)), List.drop_length]
  have htext : longLine.takeWhile (fun c => decide (c ≠ 0)) = longLine := by
    rw [List.takeWhile_eq_self_iff]
    intro c hc
    rw [(List.mem_replicate.1 hc).2]
    rfl
  rw [texts_of_some hf, htext, texts_of_none rfl, if_neg]
  intro he
  have hmem : (101 : Byte) ∈ longLine := by
    refine List.mem_of_mem_take (i := 4) ?_
    rw [he]
    exact List.mem_cons_self
  exact hnotMem 101 (by decide) hmem

/-- Clients that have read nothing send the longest line, one after the other. -/
lemma run_longLines [Fintype κ] (hpos : ∀ k, 0 < typ k) {ks : List κ} (hnodup : ks.Nodup)
    (hclient : ∀ k ∈ ks, s.client k = ⟨.prompt, zeros, longLine⟩)
    (hroom : s.cbytes + (bufSize - 1) * ks.length ≤ qbytes) :
    ∃ s', run (boundedStep qbytes typ) s (ks.map .line) = some (s', []) ∧
      s'.queue = s.queue ++ ks.map (longRequest typ) ∧ s'.out = s.out ∧
      ∀ j ∉ ks, s'.client j = s.client j := by
  induction ks generalizing s with
  | nil => exact ⟨s, rfl, by rw [List.map_nil, List.append_nil], rfl, fun _ _ => rfl⟩
  | cons k ks ih =>
      obtain ⟨hk, hnodup⟩ := List.nodup_cons.1 hnodup
      have hck := hclient k List.mem_cons_self
      have hpc : (s.client k).pc = .prompt := by rw [hck]
      have htexts : texts (s.client k).stdin = [longLine] := by rw [hck, texts_longLine]
      obtain ⟨t, ht, -⟩ := exists_line (s := s) hpos hpc
      obtain ⟨-, -, c, ⟨-, -, hnil⟩ | ⟨text, rfl, -, -, hcons⟩⟩ := line_cases hpos ht
      · rw [htexts] at hnil
        cases hnil
      · obtain ⟨rfl, -⟩ := List.cons.inj (htexts.symm.trans hcons)
        rw [List.length_cons, Nat.mul_succ] at hroom
        have hother : ∀ j ≠ k, (s.setClient k c).client j = s.client j := fun j hj =>
          Function.update_of_ne hj _ _
        have hbytes : ((s.queue ++ [longRequest typ k]).map Queued.size).sum =
            s.cbytes + (bufSize - 1) := by
          rw [List.map_append, List.sum_append, List.map_singleton, List.sum_singleton,
            size_longRequest]
          rfl
        obtain ⟨s', hrun, hqueue, hout, hrest⟩ := ih
          (s := { s.setClient k c with queue := s.queue ++ [longRequest typ k] }) hnodup
          (fun j hj => by
            rw [← hclient j (List.mem_cons_of_mem k hj)]
            exact hother j (ne_of_mem_of_not_mem hj hk))
          (by
            show ((s.queue ++ [longRequest typ k]).map Queued.size).sum + _ ≤ qbytes
            omega)
        refine ⟨s', run_cons.2 ⟨_, [], [], guarded_eq_some.2 ⟨ht, ?_⟩, hrun, rfl⟩, ?_, hout,
          fun j hj => ?_⟩
        · show ((s.queue ++ [longRequest typ k]).map Queued.size).sum ≤ qbytes
          omega
        · rw [hqueue, List.append_assoc]
          rfl
        · rw [List.mem_cons, not_or] at hj
          rw [hrest j hj.2]
          exact hother j hj.1

omit [DecidableEq κ] in
lemma sum_longRequests (typ : κ → ℕ) (ks : List κ) :
    ((ks.map (longRequest typ)).map Queued.size).sum = (bufSize - 1) * ks.length := by
  induction ks with
  | nil => rfl
  | cons k ks ih =>
      rw [List.map_cons, List.map_cons, List.sum_cons, ih, size_longRequest, List.length_cons,
        Nat.mul_succ, Nat.add_comm]

omit [DecidableEq κ] in
lemma lower_longRequests (typ : κ → ℕ) (ks : List κ) :
    ∀ q ∈ ks.map (longRequest typ), q.lower = true := by
  intro q hq
  obtain ⟨k, -, rfl⟩ := List.mem_map.1 hq
  exact lower_longRequest typ k

/-- The first request is taken, and one more fills the queue again. -/
lemma exists_jammed [Fintype κ] (hinj : Function.Injective typ) (hpos : ∀ k, 0 < typ k) {j k : κ}
    {ks : List κ} (hnodup : (j :: k :: ks).Nodup)
    (hroom : (bufSize - 1) * (k :: ks).length ≤ qbytes)
    (hlt : qbytes < (bufSize - 1) * (j :: k :: ks).length) :
    ∃ as s os, run (boundedStep qbytes typ) (start fun _ => longLine) as = some (s, os) ∧
      s.Jammed qbytes := by
  obtain ⟨hj, hnodup⟩ := List.nodup_cons.1 hnodup
  rw [List.length_cons, Nat.mul_succ] at hroom hlt
  rw [List.length_cons, Nat.mul_succ] at hlt
  -- all but one send
  obtain ⟨s, hrun, hqueue, hout, hrest⟩ := run_longLines (s := start fun _ => longLine) hpos hnodup
    (fun _ _ => rfl) (by
      show 0 + (bufSize - 1) * (k :: ks).length ≤ qbytes
      rw [List.length_cons, Nat.mul_succ]
      omega)
  have hq : s.queue = longRequest typ k :: ks.map (longRequest typ) := hqueue
  have hkept := kept_of_run hinj hpos hrun
  -- the server takes the first
  obtain ⟨t, hserve, -⟩ := hkept.alive.exists_serve hout hq rfl
  obtain ⟨-, -, q, queue, m, hq', hsize, rfl⟩ := serve_cases hkept.alive.inv hserve
  obtain ⟨rfl, rfl⟩ := List.cons.inj (hq.symm.trans hq')
  have hanswer : m.mdata.length = bufSize - 1 := hsize.trans (size_longRequest typ k)
  have hsum := sum_longRequests typ ks
  -- and the last one sends
  obtain ⟨u, hrun', hqueue', hout', -⟩ := run_longLines
    (s := { s with queue := ks.map (longRequest typ), sdata := received (longRequest typ k) s.sdata,
                   out := some m }) hpos (List.nodup_singleton j)
    (fun i hi => by
      obtain rfl := List.mem_singleton.1 hi
      exact hrest i hj)
    (by
      show ((ks.map (longRequest typ)).map Queued.size).sum + _ ≤ qbytes
      rw [List.length_singleton]
      omega)
  refine ⟨_, u, _, run_append hrun (run_cons.2 ⟨_, [], [], guarded_eq_some.2 ⟨hserve, ?_⟩, hrun',
    rfl⟩), m, hout', ?_⟩
  · show ((ks.map (longRequest typ)).map Queued.size).sum ≤ qbytes
    omega
  · have hall : u.queue = (ks ++ [j]).map (longRequest typ) := by
      rw [hqueue', List.map_append]
    rw [System.lowerBytes, hall, List.filter_eq_self.2 (lower_longRequests typ _),
      sum_longRequests, List.length_append, List.length_singleton, Nat.mul_succ]
    omega

/-- **How many clients it takes.**  With clients of different types and a queue that holds the
longest message, the system can come to a state from which it does not go on right, exactly if the
longest messages of all clients do not fit into the queue together. -/
theorem exists_jammed_iff [Fintype κ] (hinj : Function.Injective typ) (hpos : ∀ k, 0 < typ k)
    (hbuf : bufSize - 1 ≤ qbytes) :
    (∃ stdin as s os, run (boundedStep qbytes typ) (start stdin) as = some (s, os) ∧
      s.Jammed qbytes) ↔ qbytes < (bufSize - 1) * Fintype.card κ := by
  constructor
  · rintro ⟨stdin, as, s, os, hrun, hjam⟩
    have hshort : Inv typ s ∧ s.Short := Reaches.of_invariant (I := fun t => Inv typ t ∧ t.Short)
      (fun _ _ _ _ hI hs => ⟨(hI.1.step hinj hs).1, hI.2.of_step hpos hI.1 hs⟩)
      ⟨inv_start typ stdin, fun q hq => by cases hq⟩ ⟨as, os, run_of_guarded hrun⟩
    exact hjam.lt hshort.1 hshort.2
  · intro hlt
    -- so many requests have room
    have hdiv := Nat.div_add_mod qbytes (bufSize - 1)
    have hmod := Nat.mod_lt qbytes (show 0 < bufSize - 1 by decide)
    have hone : 0 < qbytes / (bufSize - 1) := Nat.div_pos hbuf (by decide)
    have hcard : qbytes / (bufSize - 1) < Fintype.card κ :=
      (Nat.div_lt_iff_lt_mul (by decide)).2 (by rwa [Nat.mul_comm])
    obtain ⟨u, -, hu⟩ := Finset.exists_subset_card_eq (s := (Finset.univ : Finset κ)) hcard
    rw [← Finset.length_toList] at hu
    have hnodup := u.nodup_toList
    rcases hL : u.toList with _ | ⟨j, _ | ⟨k, ks⟩⟩
    · rw [hL] at hu
      cases hu
    · rw [hL, List.length_singleton] at hu
      omega
    · rw [hL] at hu hnodup
      have hks : (k :: ks).length = qbytes / (bufSize - 1) := Nat.succ.inj hu
      refine ⟨fun _ => longLine, exists_jammed hinj hpos hnodup ?_ ?_⟩
      · rw [hks]
        omega
      · rw [List.length_cons, hks, Nat.mul_succ]
        omega

end

/-- Five clients with the queue of 16384 bytes, and four. -/
theorem exists_jammed_iff_five :
    (∃ stdin as s os, run (boundedStep 16384 fun k : Fin 5 => clientType k) (start stdin) as =
      some (s, os) ∧ s.Jammed 16384) ∧
    ¬ ∃ stdin as s os, run (boundedStep 16384 fun k : Fin 4 => clientType k) (start stdin) as =
      some (s, os) ∧ s.Jammed 16384 := by
  have hinj : ∀ n ≤ 10, Function.Injective fun k : Fin n => clientType k := by
    intro n hn j k he
    simp only [clientType] at he
    rw [Nat.mod_eq_of_lt (by omega), Nat.mod_eq_of_lt (by omega)] at he
    exact Fin.ext (by omega)
  have hpos : ∀ n, ∀ k : Fin n, 0 < clientType k := fun n k => Nat.lt_add_right _ (by decide)
  constructor
  · exact (exists_jammed_iff (hinj 5 (by decide)) (hpos 5) (by decide)).2 (by decide)
  · intro h
    have hlt := (exists_jammed_iff (hinj 4 (by decide)) (hpos 4) (by decide)).1 h
    revert hlt
    decide

end EchoServer

end DemoClass
