import DemoClass.EchoServer.FullQueue

/-!
# The echo service that cannot go on right

The server takes a request before there is room for the answer.  When other requests have filled the
queue by then, only a client can make room, and what it takes is its own request, as it was.  So the
sessions come to a right end just as long as the answer fits beside the requests that have still
letters to be changed (`fullQueue_right_iff`).
-/

namespace DemoClass

namespace EchoServer

open MsgQueue Runs

variable {κ : Type}

/-- A request that was not served, with a letter to be changed. -/
def Queued.lower (q : Queued κ) : Bool :=
  match q.sender with
  | .server => false
  | .client _ => q.msg.mdata.any fun c => isLower c

/-- The bytes of the requests that have to be served. -/
def System.lowerBytes (s : System κ) : ℕ := ((s.queue.filter Queued.lower).map Queued.size).sum

/-- The server holds an answer that does not fit beside the requests that have to be served. -/
def System.Jammed (qbytes : ℕ) (s : System κ) : Prop :=
  ∃ m, s.out = some m ∧ qbytes < s.lowerBytes + m.mdata.length

variable {qbytes : ℕ} {typ : κ → ℕ} {s s' : System κ} {k : κ} {a : Action κ} {o : List (Reply κ)}
  {q : Queued κ} {rest : List (Queued κ)} {text : List Byte}

/-! ### What has to be served -/

lemma sum_filter_le (p : Queued κ → Bool) (qs : List (Queued κ)) :
    ((qs.filter p).map Queued.size).sum ≤ (qs.map Queued.size).sum := by
  induction qs with
  | nil => exact Nat.le_refl 0
  | cons q qs ih =>
      rw [List.filter_cons, List.map_cons, List.sum_cons]
      split_ifs
      · rw [List.map_cons, List.sum_cons]
        omega
      · omega

lemma lowerBytes_le (s : System κ) : s.lowerBytes ≤ s.cbytes := sum_filter_le _ _

lemma Queued.exists_client (h : q.lower = true) : ∃ k, q.sender = .client k := by
  cases hq : q.sender with
  | server => simp [lower, hq] at h
  | client k => exact ⟨k, rfl⟩

lemma Answers.lower_eq_false_iff (h : Answers q k text) :
    q.lower = false ↔ q.sender = .server ∨ ∀ c ∈ text, ¬ isLower c := by
  have hzero : ¬ isLower 0#8 := by decide
  rcases h with ⟨hsender, hq⟩ | ⟨hsender, -⟩
  · simp [Queued.lower, hsender, hq.mdata_eq, terminated, hzero]
  · simp [Queued.lower, hsender]

section

variable [DecidableEq κ]

/-- What a client takes is right if it needed not to be served. -/
lemma Inv.served_iff (h : Inv typ s) (hpc : (s.client k).pc = .waiting)
    (hr : MsgQueue.receive Queued.mtype (typ k) s.queue = some (q, rest)) :
    Served typ s (.receive k) ↔ q.lower = false := by
  obtain ⟨-, ⟨text, htext, hans⟩, -⟩ := h.taken hpc hr
  rw [hans.lower_eq_false_iff]
  constructor
  · intro hall
    exact (hall _ hr).imp_right fun hlow => hlow text htext
  · intro hq r hr'
    obtain rfl := Option.some.inj (hr.symm.trans hr')
    refine hq.imp_right fun hlow text' htext' => ?_
    obtain rfl := Option.some.inj (htext.symm.trans htext')
    exact hlow

omit [DecidableEq κ] in
lemma lowerBytes_receive {t : ℕ} (hr : MsgQueue.receive Queued.mtype t s.queue = some (q, rest))
    (hq : q.lower = false) :
    ((rest.filter Queued.lower).map Queued.size).sum = s.lowerBytes := by
  have hperm := (((receive_perm hr).filter Queued.lower).map Queued.size).sum_eq
  rw [System.lowerBytes, hperm, List.filter_cons_of_neg (by simp [hq])]

/-! ### Staying jammed -/

omit [DecidableEq κ] in
lemma System.Jammed.not_finished (h : Inv typ s) (hjam : s.Jammed qbytes) : ¬ s.Finished := by
  obtain ⟨m, hout, -⟩ := hjam
  have hflight := System.flight_some hout
  obtain ⟨k, hk⟩ := h.known ⟨.server, m⟩ (hflight ▸ List.mem_cons_self)
  have hex := h.exchange k
  rw [hflight, ofType_cons_self hk] at hex
  intro hfin
  have hpc := hex.cons.1
  rw [hfin k] at hpc
  cases hpc

/-- As long as what is printed is right, the system stays jammed. -/
lemma System.Jammed.of_step (hpos : ∀ k, 0 < typ k) (h : Kept qbytes typ s)
    (hjam : s.Jammed qbytes) (ha : Served typ s a)
    (hs : boundedStep qbytes typ s a = some (s', o)) : s'.Jammed qbytes := by
  obtain ⟨m, hout, hlt⟩ := hjam
  obtain ⟨hs, hroom⟩ := guarded_eq_some.1 hs
  cases a with
  | line k =>
      obtain ⟨-, -, c, ⟨rfl, -⟩ | ⟨text, rfl, -⟩⟩ := line_cases hpos hs
      · exact ⟨m, hout, hlt⟩
      · refine ⟨m, hout, ?_⟩
        rw [System.lowerBytes, List.filter_append, List.map_append, List.sum_append]
        rw [System.lowerBytes] at hlt
        omega
  | receive k =>
      obtain ⟨hpc, q, rest, hr, he⟩ := receive_cases hs
      obtain ⟨rfl, -⟩ := Prod.mk.inj he
      have hlower := lowerBytes_receive hr ((h.alive.inv.served_iff hpc hr).1 ha)
      exact ⟨m, hout, lt_of_lt_of_eq hlt (congrArg (· + m.mdata.length) hlower.symm)⟩
  | serve =>
      obtain ⟨-, hnone, -⟩ := serve_cases h.alive.inv hs
      rw [hout] at hnone
      cases hnone
  | reply =>
      obtain ⟨-, m', hm', rfl⟩ := reply_cases h.alive.inv hs
      obtain rfl := Option.some.inj (hout.symm.trans hm')
      have hle := lowerBytes_le s
      have hbytes : s.cbytes + m.mdata.length ≤ qbytes := by
        rw [System.cbytes, List.map_append, List.sum_append] at hroom
        exact hroom
      omega

/-! ### Going on right -/

/-- A client takes what needed not to be served. -/
lemma Kept.exists_right [Fintype κ] (h : Kept qbytes typ s) (hjam : ¬ s.Jammed qbytes)
    (hq : q ∈ s.queue) (hlower : q.lower = false) :
    ∃ a s' o, boundedStep qbytes typ s a = some (s', o) ∧ ¬ s'.Jammed qbytes ∧ s'.due < s.due ∧
      Served typ s a := by
  obtain ⟨k, rest, hpc, hr⟩ := h.alive.inv.exists_receive hq
  refine ⟨.receive k, _, _, h.receive hpc hr, ?_, due_clientTake hpc hr,
    (h.alive.inv.served_iff hpc hr).2 hlower⟩
  rintro ⟨m, hout, hlt⟩
  have hsame := lowerBytes_receive hr hlower
  exact hjam ⟨m, hout, lt_of_lt_of_eq hlt (congrArg (· + m.mdata.length) hsame)⟩

/-- Where there is nothing else to take, the server goes on, or a client does. -/
lemma Kept.exists_served [Fintype κ] (hpos : ∀ k, 0 < typ k) (h : Kept qbytes typ s)
    (hfit : s.TextsFit qbytes) (hjam : ¬ s.Jammed qbytes) (hfin : ¬ s.Finished)
    (hall : ∀ q ∈ s.queue, q.lower = true) :
    ∃ a s' o, boundedStep qbytes typ s a = some (s', o) ∧ ¬ s'.Jammed qbytes ∧ s'.due < s.due ∧
      Served typ s a := by
  have hroom := h.room
  have hlower : s.lowerBytes = s.cbytes := by
    rw [System.lowerBytes, List.filter_eq_self.2 hall, System.cbytes]
  have hnone : ∀ t : System κ, t.out = none → ¬ t.Jammed qbytes := by
    rintro t hout ⟨m, hm, -⟩
    rw [hout] at hm
    cases hm
  cases hout : s.out with
  | some m =>
      have hle : s.cbytes + m.mdata.length ≤ qbytes := by
        by_contra hlt
        exact hjam ⟨m, hout, by omega⟩
      obtain ⟨s', hs, hout', hdue⟩ := h.exists_reply hout hle
      exact ⟨.reply, s', [], hs, hnone s' hout', hdue, trivial⟩
  | none =>
      cases hq : s.queue with
      | nil =>
          obtain ⟨k, s', hs, hout', hdue⟩ := h.exists_line hpos hfit hout hq hfin
          exact ⟨.line k, s', [], hs, hnone s' hout', hdue, trivial⟩
      | cons q queue =>
          obtain ⟨k, hsender⟩ := Queued.exists_client (hall q (hq ▸ List.mem_cons_self))
          obtain ⟨s', hs, hdue⟩ := h.alive.exists_serve hout hq hsender
          obtain ⟨-, -, q', queue', m, hq', hsize, rfl⟩ := serve_cases h.alive.inv hs
          have hanswer : m.mdata.length = q'.size := hsize
          have hbytes : s.cbytes = q'.size + (queue'.map Queued.size).sum := by
            rw [System.cbytes, hq', List.map_cons, List.sum_cons]
          refine ⟨.serve, _, [], guarded_eq_some.2 ⟨hs, ?_⟩, ?_, hdue, trivial⟩
          · show (queue'.map Queued.size).sum ≤ qbytes
            omega
          · rintro ⟨m', hm', hlt⟩
            obtain rfl := Option.some.inj hm'
            have hle := sum_filter_le Queued.lower queue'
            simp only [System.lowerBytes] at hlt
            omega

lemma Kept.exists_served_step [Fintype κ] (hpos : ∀ k, 0 < typ k) (h : Kept qbytes typ s)
    (hfit : s.TextsFit qbytes) (hjam : ¬ s.Jammed qbytes) (hfin : ¬ s.Finished) :
    ∃ a s' o, boundedStep qbytes typ s a = some (s', o) ∧ ¬ s'.Jammed qbytes ∧ s'.due < s.due ∧
      Served typ s a := by
  by_cases hall : ∀ q ∈ s.queue, q.lower = true
  · exact h.exists_served hpos hfit hjam hfin hall
  · push Not at hall
    obtain ⟨q, hq, hlower⟩ := hall
    exact h.exists_right hjam hq (Bool.eq_false_of_not_eq_true hlower)

/-- **Going on right.**  Clients with different types, any inputs, a queue of any size, any order of
the steps so far: the clients can get to their ends with nothing but right answers exactly if every
text that is still to be answered fits into the queue by itself, and the answer that the server
holds fits beside the requests that have to be served. -/
theorem fullQueue_right_iff [Fintype κ] (hinj : Function.Injective typ) (hpos : ∀ k, 0 < typ k)
    {stdin : κ → List Byte} {as : List (Action κ)} {os : List (Reply κ)}
    (hrun : run (boundedStep qbytes typ) (start stdin) as = some (s, os)) :
    (∃ as' s' os', run (boundedStep qbytes typ) s as' = some (s', os') ∧ s'.Finished ∧
      ∀ x ∈ os', x.Right) ↔
      (∀ k, ∀ text ∈ (s.client k).remaining, text.length < qbytes) ∧
        ∀ m, s.out = some m → s.lowerBytes + m.mdata.length ≤ qbytes := by
  have hkept := kept_of_run hinj hpos hrun
  have hjammed : ¬ s.Jammed qbytes ↔
      ∀ m, s.out = some m → s.lowerBytes + m.mdata.length ≤ qbytes := by
    simp only [System.Jammed, not_exists, not_and, not_lt]
  rw [← hjammed]
  constructor
  · rintro ⟨as', s', os', hrun', hfin, hright⟩
    refine ⟨textsFit_of_finished hinj hpos hkept hrun' hfin, fun hjam => ?_⟩
    have hserved : AllMeet (boundedStep qbytes typ) (Served typ) s as' :=
      (observed_iff_allMeet (I := Kept qbytes typ) (fun s a s' o hI hs =>
        ⟨hI.of_step hinj hpos hs, (hI.alive.inv.step hinj (guarded_eq_some.1 hs).1).2⟩)
        hkept hrun').1 hright
    have hstays := (run_of_invariant (I := fun t => Kept qbytes typ t ∧ t.Jammed qbytes)
      (P := fun _ => True) (fun s a s' o hI ha hs =>
        ⟨⟨hI.1.of_step hinj hpos hs, hI.2.of_step hpos hI.1 ha hs⟩, fun _ _ => trivial⟩)
      ⟨hkept, hjam⟩ hserved hrun').1
    exact hstays.2.not_finished hstays.1.alive.inv hfin
  · rintro ⟨hfit, hjam⟩
    obtain ⟨as', s', os', hrun', -, hfin, hright⟩ :
        ∃ as' s' os', run (boundedStep qbytes typ) s as' = some (s', os') ∧
          (Kept qbytes typ s' ∧ s'.TextsFit qbytes ∧ ¬ s'.Jammed qbytes) ∧ s'.Finished ∧
          ∀ x ∈ os', x.Right := by
      refine exists_run System.due ?_ ⟨hkept, hfit, hjam⟩
      rintro s ⟨hI, hfit, hjam⟩ hF
      obtain ⟨a, s', o, hs, hjam', hdue, hserved⟩ := hI.exists_served_step hpos hfit hjam hF
      exact ⟨a, s', o, hs, ⟨hI.of_step hinj hpos hs, hfit.of_step hpos hI hs, hjam'⟩, hdue,
        (hI.alive.inv.step hinj (guarded_eq_some.1 hs).1).2.2 hserved⟩
    exact ⟨as', s', os', hrun', hfin, hright⟩

end

/-- The server holds one answer, and the request of the other client fills the queue. -/
theorem fullQueue_right_iff_two : ∃ s os,
    run (boundedStep 3 fun k : Bool => clientType k.toNat) (start fun k => [cond k 98 97, 10])
      [.line false, .serve, .line true] = some (s, os) ∧
    ¬ ∃ as' s' os', run (boundedStep 3 fun k : Bool => clientType k.toNat) s as' = some (s', os') ∧
      s'.Finished ∧ ∀ x ∈ os', x.Right := by
  have hinj : Function.Injective fun k : Bool => clientType k.toNat := by
    intro j k
    revert j k
    decide
  have hpos : ∀ k : Bool, 0 < clientType k.toNat := fun k => Nat.lt_add_right _ (by decide)
  refine ⟨_, _, rfl, fun h => ?_⟩
  have hroom := ((@fullQueue_right_iff Bool 3 _ _ _ _ hinj hpos (fun k => [cond k 98 97, 10])
    [.line false, .serve, .line true] _ rfl).1 h).2 _ rfl
  revert hroom
  decide

end EchoServer

end DemoClass
