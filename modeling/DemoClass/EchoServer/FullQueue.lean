import DemoClass.EchoServer.Sessions

/-!
# The echo service with a full queue

The queue holds `msg_qbytes` bytes, and `msgsnd` waits as long as its message does not fit.  A
client that waits there has read its line, which nobody else sees; so here the line is still in
front of its `fgets`.

Nobody waits for ever: a client can take whatever is in the queue for it, also its own request.  So
the sessions come to their ends just when every text fits into the queue by itself
(`fullQueue_finish_iff`).
-/

namespace DemoClass

namespace EchoServer

open MsgQueue Runs

variable {κ : Type}

/-- The bytes that `msgsnd` was given. -/
def Queued.size (q : Queued κ) : ℕ := q.msg.mdata.length

/-- `msg_cbytes` -/
def System.cbytes (s : System κ) : ℕ := (s.queue.map Queued.size).sum

section

variable [DecidableEq κ]

/-- A step when the queue holds at most `qbytes` bytes. -/
def boundedStep (qbytes : ℕ) (typ : κ → ℕ) :
    System κ → Action κ → Option (System κ × List (Reply κ)) :=
  guarded (step typ) fun s => s.cbytes ≤ qbytes

variable {qbytes : ℕ} {typ : κ → ℕ} {s s' : System κ} {k : κ} {a : Action κ} {o : List (Reply κ)}
  {q : Queued κ} {rest : List (Queued κ)} {text : List Byte}

/-! ### Sizes -/

omit [DecidableEq κ] in
lemma cbytes_receive {t : ℕ} (hr : MsgQueue.receive Queued.mtype t s.queue = some (q, rest)) :
    s.cbytes = q.size + (rest.map Queued.size).sum :=
  ((receive_perm hr).map Queued.size).sum_eq

omit [DecidableEq κ] in
lemma size_le_cbytes (hq : q ∈ s.queue) : q.size ≤ s.cbytes := by
  obtain ⟨us, vs, he⟩ := List.append_of_mem hq
  rw [System.cbytes, he, List.map_append, List.sum_append, List.map_cons, List.sum_cons]
  omega

/-! ### The bound -/

/-- The server is at work, and whatever is in the queue or was there fits into it. -/
structure Kept (qbytes : ℕ) (typ : κ → ℕ) (s : System κ) : Prop where
  alive : Alive typ s
  room : s.cbytes ≤ qbytes
  fits : ∀ m, s.out = some m → m.mdata.length ≤ qbytes

omit [DecidableEq κ] in
lemma kept_start (qbytes : ℕ) (typ : κ → ℕ) (stdin : κ → List Byte) :
    Kept qbytes typ (start stdin) :=
  ⟨alive_start typ stdin, Nat.zero_le qbytes, fun m hm => by cases hm⟩

lemma Kept.of_step (hinj : Function.Injective typ) (hpos : ∀ k, 0 < typ k) (h : Kept qbytes typ s)
    (hs : boundedStep qbytes typ s a = some (s', o)) : Kept qbytes typ s' := by
  obtain ⟨hs, hroom⟩ := guarded_eq_some.1 hs
  refine ⟨h.alive.of_step hinj hpos hs, hroom, ?_⟩
  cases a with
  | line k =>
      obtain ⟨-, -, c, ⟨rfl, -⟩ | ⟨text, rfl, -⟩⟩ := line_cases hpos hs
      · exact h.fits
      · exact h.fits
  | receive k =>
      obtain ⟨-, q, rest, -, he⟩ := receive_cases hs
      obtain ⟨rfl, -⟩ := Prod.mk.inj he
      exact h.fits
  | serve =>
      obtain ⟨-, -, q, queue, m, hq, hsize, rfl⟩ := serve_cases h.alive.inv hs
      intro m' hm'
      obtain rfl := Option.some.inj hm'
      rw [hsize]
      exact (size_le_cbytes (hq ▸ List.mem_cons_self)).trans h.room
  | reply =>
      obtain ⟨-, m, -, rfl⟩ := reply_cases h.alive.inv hs
      exact fun m' hm' => by cases hm'

omit [DecidableEq κ] in
/-- A message in the queue is taken by the client that waits for it. -/
lemma Inv.exists_receive (h : Inv typ s) (hq : q ∈ s.queue) :
    ∃ k rest, (s.client k).pc = .waiting ∧
      MsgQueue.receive Queued.mtype (typ k) s.queue = some (q, rest) := by
  have hmem : q ∈ s.flight := List.mem_append_right _ hq
  obtain ⟨k, hk⟩ := h.known q hmem
  have hof : q ∈ ofType Queued.mtype (typ k) s.queue := mem_ofType.2 ⟨hq, hk⟩
  have hpc : (s.client k).pc = .waiting := by
    by_contra hpc
    have hnil := (h.exchange k).idle hpc
    exact List.not_mem_nil (hnil ▸ mem_ofType.2 ⟨hmem, hk⟩)
  obtain ⟨hpos, -, q', -, hone, -⟩ := (h.exchange k).busy hpc
  rw [System.flight, ofType_append] at hone
  have hqueue : ofType Queued.mtype (typ k) s.queue = [q] := by
    rcases List.append_eq_singleton_iff.1 hone with ⟨-, hone⟩ | ⟨-, hnil⟩
    · rw [hone] at hof ⊢
      rw [List.mem_singleton.1 hof]
    · rw [hnil] at hof
      exact absurd hof List.not_mem_nil
  obtain ⟨rest, hr⟩ := MsgQueue.exists_receive hqueue hpos
  exact ⟨k, rest, hpc, hr⟩

/-- The taking of a message needs no room. -/
lemma Kept.receive (h : Kept qbytes typ s) (hpc : (s.client k).pc = .waiting)
    (hr : MsgQueue.receive Queued.mtype (typ k) s.queue = some (q, rest)) :
    boundedStep qbytes typ s (.receive k) = some (s.clientTake k q rest) := by
  refine guarded_eq_some.2 ⟨by rw [step, if_pos hpc, hr, Option.map_some], ?_⟩
  have hbytes := cbytes_receive hr
  have hroom := h.room
  show (rest.map Queued.size).sum ≤ qbytes
  omega

/-- What a client was answered had been in the queue. -/
lemma Kept.request_lt (h : Kept qbytes typ s) (hs : boundedStep qbytes typ s a = some (s', o))
    (hpos : ∀ k, 0 < typ k) (hmem : some text ∈ requestsOf k o) : text.length < qbytes := by
  obtain ⟨hs, -⟩ := guarded_eq_some.1 hs
  cases a with
  | line j =>
      obtain ⟨rfl, -⟩ := line_cases hpos hs
      cases hmem
  | receive j =>
      obtain ⟨hpc, q, rest, hr, he⟩ := receive_cases hs
      obtain ⟨-, rfl⟩ := Prod.mk.inj he
      obtain ⟨-, ⟨text', htext', hans⟩, -⟩ := h.alive.inv.taken hpc hr
      have hrequest : text = text' := by
        obtain ⟨x, hx, hsome⟩ := List.mem_map.1 hmem
        obtain rfl := List.mem_singleton.1 (List.mem_filter.1 hx).1
        exact Option.some.inj (hsome.symm.trans htext')
      have hsize : q.size = text'.length + 1 := hans.length_eq
      have hbytes := cbytes_receive hr
      have hroom := h.room
      rw [hrequest]
      omega
  | serve =>
      obtain ⟨rfl, -⟩ := serve_cases h.alive.inv hs
      cases hmem
  | reply =>
      obtain ⟨rfl, -⟩ := reply_cases h.alive.inv hs
      cases hmem

/-- What a client has still to be answered for was there before the step. -/
lemma mem_remaining_of_step (hpos : ∀ k, 0 < typ k) (h : Kept qbytes typ s)
    (hs : boundedStep qbytes typ s a = some (s', o)) :
    text ∈ (s.client k).remaining ↔
      some text ∈ requestsOf k o ∨ text ∈ (s'.client k).remaining := by
  have hbooks := books_of_step hpos h.alive.inv k (guarded_eq_some.1 hs).1
  have hmem : ∀ ts : List (List Byte), some text ∈ ts.map some ↔ text ∈ ts := fun ts => by simp
  rw [← hmem (s.client k).remaining, ← hbooks, List.mem_append, hmem]

/-! ### Getting to the end -/

/-- Every text that is still to be answered fits into the queue by itself. -/
def System.TextsFit (qbytes : ℕ) (s : System κ) : Prop :=
  ∀ k, ∀ text ∈ (s.client k).remaining, text.length < qbytes

/-- The server sends its answer when there is room. -/
lemma Kept.exists_reply [Fintype κ] {m : MsqBuf} (h : Kept qbytes typ s) (hout : s.out = some m)
    (hroom : s.cbytes + m.mdata.length ≤ qbytes) :
    ∃ s', boundedStep qbytes typ s .reply = some (s', []) ∧ s'.out = none ∧ s'.due < s.due := by
  obtain ⟨s', hs, hdue⟩ := @EchoServer.exists_reply _ _ typ _ _ _ hout
  obtain ⟨-, m', hm', rfl⟩ := reply_cases h.alive.inv hs
  obtain rfl := Option.some.inj (hout.symm.trans hm')
  refine ⟨_, guarded_eq_some.2 ⟨hs, ?_⟩, rfl, hdue⟩
  show ((s.queue ++ [(⟨.server, m⟩ : Queued κ)]).map Queued.size).sum ≤ qbytes
  rw [List.map_append, List.sum_append]
  exact hroom

/-- When nothing is on its way, some client takes a line, or leaves. -/
lemma Kept.exists_line [Fintype κ] (hpos : ∀ k, 0 < typ k) (h : Kept qbytes typ s)
    (hfit : s.TextsFit qbytes) (hout : s.out = none) (hq : s.queue = []) (hfin : ¬ s.Finished) :
    ∃ k s', boundedStep qbytes typ s (.line k) = some (s', []) ∧ s'.out = none ∧
      s'.due < s.due := by
  obtain ⟨k, hpc⟩ := h.alive.inv.exists_prompt (by rw [System.flight_none hout, hq]) hfin
  obtain ⟨s', hs, hdue⟩ := EchoServer.exists_line hpos hpc
  obtain ⟨-, -, c, ⟨rfl, -⟩ | ⟨text, rfl, -, -, htexts⟩⟩ := line_cases hpos hs
  · exact ⟨k, _, guarded_eq_some.2 ⟨hs, h.room⟩, hout, hdue⟩
  · have hlt : text.length < qbytes := by
      refine hfit k text ?_
      rw [Client.remaining, hpc]
      exact htexts ▸ List.mem_cons_self
    refine ⟨k, _, guarded_eq_some.2 ⟨hs, ?_⟩, hout, hdue⟩
    show ((s.queue ++ [(⟨.client k, ⟨typ k, terminated text⟩⟩ : Queued κ)]).map
      Queued.size).sum ≤ qbytes
    rw [hq, List.nil_append, List.map_singleton, List.sum_singleton, Queued.size, terminated,
      List.length_append, List.length_singleton]
    omega

/-- Some step brings the system nearer to its end. -/
lemma Kept.exists_step [Fintype κ] (hpos : ∀ k, 0 < typ k) (h : Kept qbytes typ s)
    (hfit : s.TextsFit qbytes) (hfin : ¬ s.Finished) :
    ∃ a s' o, boundedStep qbytes typ s a = some (s', o) ∧ s'.due < s.due := by
  cases hq : s.queue with
  | cons q queue =>
      -- a client takes it, be it its own request
      obtain ⟨k, rest, hpc, hr⟩ := h.alive.inv.exists_receive (hq ▸ List.mem_cons_self)
      exact ⟨.receive k, _, _, h.receive hpc hr, due_clientTake hpc hr⟩
  | nil =>
      cases hout : s.out with
      | some m =>
          have hfits := h.fits m hout
          have hbytes : s.cbytes = 0 := by rw [System.cbytes, hq]; rfl
          obtain ⟨s', hs, -, hdue⟩ := h.exists_reply hout (by omega)
          exact ⟨.reply, s', [], hs, hdue⟩
      | none =>
          obtain ⟨k, s', hs, -, hdue⟩ := h.exists_line hpos hfit hout hq hfin
          exact ⟨.line k, s', [], hs, hdue⟩

lemma System.TextsFit.of_step (hpos : ∀ k, 0 < typ k) (hfit : s.TextsFit qbytes)
    (h : Kept qbytes typ s) (hs : boundedStep qbytes typ s a = some (s', o)) : s'.TextsFit qbytes :=
  fun k text ht => hfit k text ((mem_remaining_of_step hpos h hs).2 (Or.inr ht))

lemma kept_of_run (hinj : Function.Injective typ) (hpos : ∀ k, 0 < typ k) {stdin : κ → List Byte}
    {as : List (Action κ)} {os : List (Reply κ)}
    (hrun : run (boundedStep qbytes typ) (start stdin) as = some (s, os)) : Kept qbytes typ s :=
  Reaches.of_invariant (fun _ _ _ _ hI hs => hI.of_step hinj hpos hs) (kept_start qbytes typ stdin)
    ⟨as, os, hrun⟩

/-- Where the clients have left, every text had fitted. -/
lemma textsFit_of_finished (hinj : Function.Injective typ) (hpos : ∀ k, 0 < typ k)
    (h : Kept qbytes typ s) {as : List (Action κ)} {os : List (Reply κ)}
    (hrun : run (boundedStep qbytes typ) s as = some (s', os)) (hfin : s'.Finished) :
    s.TextsFit qbytes := by
  intro k text htext
  by_contra hlt
  -- a text that does not fit stays
  have hstays : Kept qbytes typ s' ∧ text ∈ (s'.client k).remaining := by
    refine Reaches.of_invariant (I := fun t => Kept qbytes typ t ∧ text ∈ (t.client k).remaining)
      ?_ ⟨h, htext⟩ ⟨as, os, hrun⟩
    rintro s a s' o ⟨hI, hmem⟩ hs
    refine ⟨hI.of_step hinj hpos hs, ?_⟩
    rcases (mem_remaining_of_step hpos hI hs).1 hmem with hrequest | hmem
    · exact absurd (hI.request_lt hs hpos hrequest) hlt
    · exact hmem
  have hmem := hstays.2
  rw [Client.remaining, hfin k] at hmem
  cases hmem

/-- **No deadlock.**  Clients with different types, any inputs, a queue of any size, any order of
the steps so far: the clients can get to their ends exactly if every text that is still to be
answered fits into the queue by itself. -/
theorem fullQueue_finish_iff [Fintype κ] (hinj : Function.Injective typ) (hpos : ∀ k, 0 < typ k)
    {stdin : κ → List Byte} {as : List (Action κ)} {os : List (Reply κ)}
    (hrun : run (boundedStep qbytes typ) (start stdin) as = some (s, os)) :
    (∃ s', Reaches (boundedStep qbytes typ) s s' ∧ s'.Finished) ↔
      ∀ k, ∀ text ∈ (s.client k).remaining, text.length < qbytes := by
  have hkept := kept_of_run hinj hpos hrun
  constructor
  · rintro ⟨s', ⟨as', os', hrun'⟩, hfin⟩
    exact textsFit_of_finished hinj hpos hkept hrun' hfin
  · intro hfit
    refine exists_reaches (I := fun s => Kept qbytes typ s ∧ s.TextsFit qbytes) System.due
      (fun s hI hF => ?_) ⟨hkept, hfit⟩
    obtain ⟨a, s', o, hs, hdue⟩ := hI.1.exists_step hpos hI.2 hF
    exact ⟨a, s', o, hs, ⟨hI.1.of_step hinj hpos hs, hI.2.of_step hpos hI.1 hs⟩, hdue⟩

end

/-- The server holds an answer, and the request of the other client fills the queue. -/
theorem fullQueue_finish_two : ∃ s os,
    run (boundedStep 3 fun k : Bool => clientType k.toNat) (start fun k => [cond k 98 97, 10])
      [.line false, .serve, .line true] = some (s, os) ∧
    boundedStep 3 (fun k : Bool => clientType k.toNat) s .reply = none ∧
    ∃ s', Reaches (boundedStep 3 fun k : Bool => clientType k.toNat) s s' ∧ s'.Finished := by
  have hinj : Function.Injective fun k : Bool => clientType k.toNat := by
    intro j k
    revert j k
    decide
  have hpos : ∀ k : Bool, 0 < clientType k.toNat := fun k => Nat.lt_add_right _ (by decide)
  refine ⟨_, _, rfl, rfl, ?_⟩
  refine (@fullQueue_finish_iff Bool _ 3 _ _ _ hinj hpos (fun k => [cond k 98 97, 10])
    [.line false, .serve, .line true] _ rfl).2 fun k text htext => ?_
  have hnil : texts [] = [] := texts_of_none rfl
  cases k with
  | false =>
      obtain rfl : text = [97, 10] := by
        refine List.mem_singleton.1 ?_
        rw [← hnil]
        exact htext
      decide
  | true =>
      obtain rfl : text = [98, 10] := by
        refine List.mem_singleton.1 ?_
        rw [← hnil]
        exact htext
      decide

end EchoServer

end DemoClass
