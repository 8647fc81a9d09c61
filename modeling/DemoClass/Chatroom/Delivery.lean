import DemoClass.Chatroom.System
import DemoClass.Lib.MsgQueue

/-!
# No message gets lost

What the server and the clients put into the queue is written down along a run (`put`).  Whoever
takes what, and in whatever order they come: of every type, the messages that were taken and then
those in the queue are the ones that were put there, in their order (`messages_delivered`).
-/

namespace DemoClass

namespace Chatroom

open CString MsgQueue Runs

variable {κ : Type}

/-- The type by which a message is asked for. -/
def Queued.type (q : Queued κ) : ℕ := q.msg.mtype.toNat

/-- What `msgsnd` puts into the queue. -/
def accepted (sender : Party κ) (msg : MsgBuf) : List (Queued κ) :=
  if 0 < msg.mtype then [⟨sender, msg⟩] else []

/-- What a step puts into the queue. -/
def put (pid : κ → ℕ) (s : System κ) : Action κ → List (Queued κ)
  | .login k name =>
    if name.length < maxName then
      accepted (.client k) ((s.client k).sBuf.print (loginText (clientId (pid k)) name)).sent
    else []
  | .list k => accepted (.client k) ((s.client k).sBuf.print (listText (clientId (pid k)))).sent
  | .chat k dst_id buf =>
    if buf.length < 1024 then
      accepted (.client k)
        (({ (s.client k).sBuf with mtype := dst_id } : MsgBuf).print (chatText dst_id buf)).sent
    else []
  | .send => s.out.head?.toList.flatMap (accepted .server)
  | .poll _ | .listed _ | .other _ | .receive => []

variable {queue rest : List (Queued κ)} {q : Queued κ}

lemma msgsnd_eq (queue : List (Queued κ)) (sender : Party κ) (msg : MsgBuf) :
    msgsnd queue sender msg = queue ++ accepted sender msg := by
  rw [msgsnd, accepted]
  split_ifs
  · rfl
  · rw [List.append_nil]

/-- `msgrcv` takes the message as any queue of typed messages gives it. -/
lemma receive_of_msgrcv {msgsz msgtyp : ℕ} (h : msgrcv queue msgsz msgtyp = .message q rest) :
    MsgQueue.receive Queued.type msgtyp queue = some (q, rest) := by
  have hwanted : ∀ p : Queued κ,
      Chatroom.wanted msgtyp p = MsgQueue.wanted Queued.type msgtyp p := by
    intro p
    rcases Nat.eq_zero_or_pos msgtyp with rfl | hpos
    · simp [Chatroom.wanted, MsgQueue.wanted]
    · have hiff : p.msg.mtype = msgtyp ↔ p.msg.mtype.toNat = msgtyp := by omega
      rw [Chatroom.wanted, MsgQueue.wanted, Queued.type]
      simp only [hiff]
  rw [msgrcv, funext hwanted] at h
  rw [MsgQueue.receive]
  cases hfind : queue.find? (MsgQueue.wanted Queued.type msgtyp) with
  | none =>
      rw [hfind] at h
      cases h
  | some p =>
      simp only [hfind] at h
      split_ifs at h
      obtain ⟨rfl, rfl⟩ := Received.message.inj h
      rfl

/-- What a step takes is in front of what it leaves. -/
lemma ofType_msgrcv {msgsz msgtyp : ℕ} (h : msgrcv queue msgsz msgtyp = .message q rest) (t : ℕ) :
    ofType Queued.type t [q] ++ ofType Queued.type t rest = ofType Queued.type t queue :=
  (receive_books (receive_of_msgrcv h) t).symm

variable [DecidableEq κ] {pid : κ → ℕ} {s s' : System κ} {a : Action κ} {ts : List (Taken κ)}

omit [DecidableEq κ] in
lemma queue_serverTake : (s.serverTake q rest).queue = rest := by
  simp only [System.serverTake]
  split <;> rfl

omit [DecidableEq κ] in
/-- A step that only sends. -/
lemma books_of_send {p : Party κ} {m : MsgBuf} (hqueue : s'.queue = msgsnd s.queue p m) (t : ℕ) :
    ofType Queued.type t (([] : List (Taken κ)).map Taken.message) ++
        ofType Queued.type t s'.queue =
      ofType Queued.type t s.queue ++ ofType Queued.type t (accepted p m) := by
  rw [hqueue, msgsnd_eq, ofType_append, List.map_nil, ofType_nil, List.nil_append]

/-- One step. -/
lemma books_of_step (hs : step pid s a = some (s', ts)) (t : ℕ) :
    ofType Queued.type t (ts.map Taken.message) ++ ofType Queued.type t s'.queue =
      ofType Queued.type t s.queue ++ ofType Queued.type t (put pid s a) := by
  cases a with
  | poll k =>
      rw [step] at hs
      split_ifs at hs
      rw [put, ofType_nil, List.append_nil]
      split at hs
      · next hr =>
        obtain ⟨rfl, rfl⟩ := Prod.mk.inj (Option.some.inj hs)
        exact ofType_msgrcv hr t
      all_goals
        obtain ⟨rfl, rfl⟩ := Prod.mk.inj (Option.some.inj hs)
        rfl
  | login k name =>
      rw [step] at hs
      split_ifs at hs with hpc hname
      · obtain ⟨rfl, rfl⟩ := Prod.mk.inj (Option.some.inj hs)
        rw [put, if_pos hname]
        exact books_of_send rfl t
      · obtain ⟨rfl, rfl⟩ := Prod.mk.inj (Option.some.inj hs)
        rw [put, if_neg hname, ofType_nil, List.append_nil]
        rfl
  | list k =>
      rw [step] at hs
      split_ifs at hs
      obtain ⟨rfl, rfl⟩ := Prod.mk.inj (Option.some.inj hs)
      exact books_of_send rfl t
  | listed k =>
      rw [step] at hs
      split_ifs at hs
      rw [put, ofType_nil, List.append_nil]
      split at hs
      · next hr =>
        obtain ⟨rfl, rfl⟩ := Prod.mk.inj (Option.some.inj hs)
        exact ofType_msgrcv hr t
      · obtain ⟨rfl, rfl⟩ := Prod.mk.inj (Option.some.inj hs)
        rfl
      · cases hs
  | chat k dst_id buf =>
      rw [step] at hs
      split_ifs at hs with hpc hbuf
      · obtain ⟨rfl, rfl⟩ := Prod.mk.inj (Option.some.inj hs)
        rw [put, if_pos hbuf]
        exact books_of_send rfl t
      · obtain ⟨rfl, rfl⟩ := Prod.mk.inj (Option.some.inj hs)
        rw [put, if_neg hbuf, ofType_nil, List.append_nil]
        rfl
  | other k =>
      rw [step] at hs
      split_ifs at hs
      obtain ⟨rfl, rfl⟩ := Prod.mk.inj (Option.some.inj hs)
      rw [put, ofType_nil, List.append_nil]
      rfl
  | receive =>
      rw [step] at hs
      split_ifs at hs
      rw [put, ofType_nil, List.append_nil]
      split at hs
      · next hr =>
        obtain ⟨rfl, rfl⟩ := Prod.mk.inj (Option.some.inj hs)
        rw [queue_serverTake]
        exact ofType_msgrcv hr t
      · obtain ⟨rfl, rfl⟩ := Prod.mk.inj (Option.some.inj hs)
        rfl
      · cases hs
  | send =>
      rw [step] at hs
      cases hout : s.out with
      | nil => simp [hout] at hs
      | cons m ms =>
          simp only [hout, Option.some.injEq, Prod.mk.injEq] at hs
          obtain ⟨rfl, rfl⟩ := hs
          have hput : put pid s .send = accepted .server m := by
            rw [put, hout, List.head?_cons, Option.toList_some, List.flatMap_cons,
              List.flatMap_nil, List.append_nil]
          rw [hput]
          exact books_of_send rfl t

/-- **No message gets lost**, comes twice, or is overtaken by one of its type.  In any order of the
steps of the clients and the server, of every type, what was taken and then what is in the queue is
what was put there; so the messages that were put there are those that were taken and those in the
queue. -/
theorem messages_delivered (pid : κ → ℕ) (junk : Party κ → ℕ → Char) {as : List (Action κ)}
    (hrun : run (step pid) (start junk) as = some (s, ts)) :
    (∀ t, ofType Queued.type t (ts.map Taken.message) ++ ofType Queued.type t s.queue =
      ofType Queued.type t (logged (step pid) (put pid) (start junk) as)) ∧
    (ts.map Taken.message ++ s.queue).Perm (logged (step pid) (put pid) (start junk) as) := by
  have hbooks : ∀ t, ofType Queued.type t (ts.map Taken.message) ++
      ofType Queued.type t s.queue =
        ofType Queued.type t (logged (step pid) (put pid) (start junk) as) := by
    intro t
    rw [logged_part ofType_nil ofType_append]
    exact run_books (I := fun _ => True) (g := fun s => ofType Queued.type t s.queue)
      (p := fun ts => ofType Queued.type t (ts.map Taken.message)) rfl
      (fun o o' => by rw [List.map_append, ofType_append])
      (fun s a s' o _ hs => ⟨trivial, books_of_step hs t⟩) trivial hrun
  refine ⟨hbooks, @perm_of_ofType _ Queued.type _ _ fun t => ?_⟩
  rw [ofType_append, hbooks]

/-- A client logs in, and the server has told it so. -/
theorem messages_delivered_login :
    ∃ s ts, run (step fun _ : Unit => 2) (start fun _ _ => nul)
      [.poll (), .login () ['a'], .receive, .send] = some (s, ts) ∧ ts.length = 1 ∧
      (ts.map Taken.message ++ s.queue).Perm (logged (step fun _ : Unit => 2) (put fun _ => 2)
        (start fun _ _ => nul) [.poll (), .login () ['a'], .receive, .send]) := by
  refine ⟨_, _, rfl, rfl, ?_⟩
  exact (@messages_delivered Unit _ _ _ (fun _ => 2) (fun _ _ => nul)
    [.poll (), .login () ['a'], .receive, .send] rfl).2

end Chatroom

end DemoClass
