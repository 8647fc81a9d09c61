import DemoClass.EchoServer.Replies
import DemoClass.Lib.Mutex
import Mathlib.Algebra.BigOperators.Group.Finset.Basic
import Mathlib.Data.Fintype.BigOperators

/-!
# Sessions with the echo service

The texts that a client sends are given by its input alone (`texts`): the lines up to a NUL, until
one starts with `exit` or the input ends.  Behind what a client was answered there is always what
it waits for and what it has still to send (`Client.remaining`).

Whatever has happened so far, no client is stuck: the answers that are in front of the queue can be
taken, and the requests served, so that all clients come to their ends (`sessions_finish`).
-/

namespace DemoClass

namespace EchoServer

open MsgQueue Runs

variable {κ : Type}

/-- The texts that a client sends for this input. -/
def texts (stdin : List Byte) : List (List Byte) :=
  match _h : fgets (bufSize - 1) stdin with
  | none => []
  | some (line, rest) =>
    if line.take 4 = exitText then [] else line.takeWhile (· ≠ 0) :: texts rest
termination_by stdin.length
decreasing_by exact fgets_length_lt (n := bufSize - 1) (by decide) ‹_›

/-- What a client waits to be answered, and has still to send. -/
def Client.remaining (c : Client) : List (List Byte) :=
  match c.pc with
  | .prompt => texts c.stdin
  | .waiting => (str c.wdata).toList ++ texts c.stdin
  | .stopped => []

/-- The requests that the client `k` was answered. -/
def requestsOf [DecidableEq κ] (k : κ) (os : List (Reply κ)) : List (Option (List Byte)) :=
  (os.filter fun r => r.client = k).map Reply.request

/-! ### Lines -/

variable {line mem stdin rest : List Byte}

lemma texts_of_none (h : fgets (bufSize - 1) stdin = none) : texts stdin = [] := by
  rw [texts]
  split
  · rfl
  · next heq =>
    rw [h] at heq
    cases heq

lemma texts_of_some (h : fgets (bufSize - 1) stdin = some (line, rest)) :
    texts stdin = if line.take 4 = exitText then [] else line.takeWhile (· ≠ 0) :: texts rest := by
  rw [texts]
  split
  · next heq =>
    rw [h] at heq
    cases heq
  · next heq =>
    rw [h] at heq
    obtain ⟨rfl, rfl⟩ := Prod.mk.inj (Option.some.inj heq)
    rfl

/-- What was in the array before is not read. -/
lemma str_write_line (line mem : List Byte) :
    str (write (terminated line) mem) = some (line.takeWhile (· ≠ 0)) := by
  suffices h : ∀ mem, str (line ++ 0 :: mem) = some (line.takeWhile (· ≠ 0)) by
    rw [write, terminated, List.append_assoc]
    exact h _
  intro mem
  induction line with
  | nil => simp [str]
  | cons c line ih =>
      rw [List.cons_append, str]
      by_cases hc : c = 0
      · simp [hc]
      · rw [if_neg hc, ih, List.takeWhile_cons_of_pos (by simpa using hc)]
        rfl

lemma take_write_line (line mem : List Byte) :
    (write (terminated line) mem).take 4 = exitText ↔ line.take 4 = exitText := by
  rw [write, terminated, List.append_assoc]
  by_cases hlen : 4 ≤ line.length
  · rw [List.take_append_of_le_length hlen]
  · -- the NUL is among the first four
    refine iff_of_false (fun he => ?_) fun he => ?_
    · have hzero : (0 : Byte) ∈ exitText := by
        rw [← he, List.take_append, List.mem_append]
        obtain ⟨n, hn⟩ : ∃ n, 4 - line.length = n + 1 := ⟨3 - line.length, by omega⟩
        rw [hn]
        exact Or.inr List.mem_cons_self
      revert hzero
      decide
    · have hle := List.length_take_le' 4 line
      rw [he] at hle
      exact hlen hle

section

variable [DecidableEq κ] {typ : κ → ℕ} {s s' : System κ} {k : κ} {a : Action κ}
  {o : List (Reply κ)}

/-! ### What a step does -/

omit [DecidableEq κ] in
/-- A request and its answer are of one size. -/
lemma Answers.length_eq {q : Queued κ} {text : List Byte} (h : Answers q k text) :
    q.msg.mdata.length = text.length + 1 := by
  rcases h with ⟨-, hq⟩ | ⟨-, hq⟩
  · rw [hq.mdata_eq, terminated, List.length_append, List.length_singleton]
  · rw [hq.mdata_eq, terminated, List.length_append, List.length_map, List.length_singleton]

/-- A client at its prompt leaves, or sends its next text. -/
lemma line_cases (hpos : ∀ k, 0 < typ k) (hs : step typ s (.line k) = some (s', o)) :
    o = [] ∧ (s.client k).pc = .prompt ∧ ∃ c, (s' = s.setClient k c ∧ c.pc = .stopped ∧
        texts (s.client k).stdin = []) ∨
      ∃ text, s' = { s.setClient k c with
          queue := s.queue ++ [⟨.client k, ⟨typ k, terminated text⟩⟩] } ∧ c.pc = .waiting ∧
        str c.wdata = some text ∧ texts (s.client k).stdin = text :: texts c.stdin := by
  rw [step] at hs
  split_ifs at hs with hpc
  cases hf : fgets (bufSize - 1) (s.client k).stdin with
  | none =>
      rw [hf] at hs
      obtain ⟨rfl, rfl⟩ := Prod.mk.inj (Option.some.inj hs)
      exact ⟨rfl, hpc, _, Or.inl ⟨rfl, rfl, texts_of_none hf⟩⟩
  | some r =>
      obtain ⟨line, stdin⟩ := r
      have hsnd : ∀ text, msgsnd s.queue (.client k) ⟨typ k, terminated text⟩ =
          some (s.queue ++ [⟨.client k, ⟨typ k, terminated text⟩⟩]) := fun _ => if_pos (hpos k)
      have htexts := texts_of_some hf
      simp only [hf, System.clientLine, take_write_line, str_write_line, hsnd] at hs
      split_ifs at hs htexts
      · obtain ⟨rfl, rfl⟩ := Prod.mk.inj (Option.some.inj hs)
        exact ⟨rfl, hpc, _, Or.inl ⟨rfl, rfl, htexts⟩⟩
      · obtain ⟨rfl, rfl⟩ := Prod.mk.inj (Option.some.inj hs)
        exact ⟨rfl, hpc, _, Or.inr ⟨_, rfl, rfl, str_write_line line _, htexts⟩⟩

/-- A client that waits takes a message of its type. -/
lemma receive_cases (hs : step typ s (.receive k) = some (s', o)) :
    (s.client k).pc = .waiting ∧ ∃ q rest,
      MsgQueue.receive Queued.mtype (typ k) s.queue = some (q, rest) ∧
        (s', o) = s.clientTake k q rest := by
  simp only [step, Option.ite_none_right_eq_some, Option.map_eq_some_iff, Prod.exists] at hs
  obtain ⟨hpc, q, rest, hr, he⟩ := hs
  exact ⟨hpc, q, rest, hr, he.symm⟩

omit [DecidableEq κ] in
/-- The server makes an answer, of the same size, of whatever it takes. -/
lemma Inv.exists_answer {q : Queued κ} {queue : List (Queued κ)} (h : Inv typ s)
    (hout : s.out = none) (hq : s.queue = q :: queue) :
    ∃ m, m.mdata.length = q.msg.mdata.length ∧ s.serverTake q queue =
      { s with queue := queue, sdata := received q s.sdata, out := some m } := by
  have hflight : s.flight = q :: queue := by rw [System.flight_none hout, hq]
  obtain ⟨k, hk⟩ := h.known q (hflight ▸ List.mem_cons_self)
  have hex := h.exchange k
  rw [hflight, ofType_cons_self hk] at hex
  obtain ⟨-, -, -, text, -, hans⟩ := hex.cons
  obtain ⟨hne, m, hm, -, hans'⟩ := hans.serve s.sdata
  refine ⟨m, ?_, by rw [System.serverTake, if_neg hne, hm]⟩
  rw [hans.length_eq]
  exact hans'.length_eq

/-- The server takes the message in front. -/
lemma serve_cases (h : Inv typ s) (hs : step typ s .serve = some (s', o)) :
    o = [] ∧ s.out = none ∧ ∃ q queue m, s.queue = q :: queue ∧
      m.mdata.length = q.msg.mdata.length ∧
      s' = { s with queue := queue, sdata := received q s.sdata, out := some m } := by
  simp only [step, Option.ite_none_right_eq_some, Option.map_eq_some_iff, Prod.exists,
    Prod.mk.injEq] at hs
  obtain ⟨⟨-, hout⟩, q, queue, hr, rfl, rfl⟩ := hs
  obtain ⟨m, hsize, hm⟩ := h.exists_answer hout (receive_zero hr)
  exact ⟨rfl, hout, q, queue, m, receive_zero hr, hsize, hm⟩

/-- The server sends what it holds. -/
lemma reply_cases (h : Inv typ s) (hs : step typ s .reply = some (s', o)) :
    o = [] ∧ ∃ m, s.out = some m ∧
      s' = { s with queue := s.queue ++ [⟨.server, m⟩], out := none } := by
  cases hout : s.out with
  | none => simp [step, hout] at hs
  | some m =>
      simp only [step, hout, Option.some.injEq, Prod.mk.injEq] at hs
      obtain ⟨rfl, rfl⟩ := hs
      have hflight := System.flight_some hout
      obtain ⟨k, hk⟩ := h.known ⟨.server, m⟩ (hflight ▸ List.mem_cons_self)
      have hex := h.exchange k
      rw [hflight, ofType_cons_self hk] at hex
      have hpos : 0 < m.mtype := lt_of_lt_of_eq hex.cons.2.2.1 hk.symm
      exact ⟨rfl, m, rfl, by rw [msgsnd, if_pos hpos, Option.getD_some]⟩

/-! ### The books -/

@[simp] lemma requestsOf_append (os os' : List (Reply κ)) :
    requestsOf k (os ++ os') = requestsOf k os ++ requestsOf k os' := by
  rw [requestsOf, List.filter_append, List.map_append]
  rfl

/-- A step of another client changes nothing for `k`. -/
lemma remaining_setClient_ne {j : κ} (hj : k ≠ j) (c : Client) (s : System κ) :
    (s.setClient j c).client k = s.client k := Function.update_of_ne hj _ _

/-- A client that takes its next line has still to be answered for the same texts. -/
lemma remaining_line (hpos : ∀ k, 0 < typ k) {j : κ}
    (hs : step typ s (.line j) = some (s', o)) :
    (s'.client k).remaining = (s.client k).remaining := by
  obtain ⟨-, hpc, c, ⟨rfl, hc, htexts⟩ | ⟨text, rfl, hc, htext, htexts⟩⟩ := line_cases hpos hs
  · by_cases hk : k = j
    · subst hk
      simp [System.setClient, Client.remaining, hpc, hc, htexts]
    · rw [remaining_setClient_ne hk]
  · by_cases hk : k = j
    · subst hk
      simp [System.setClient, Client.remaining, hpc, hc, htext, htexts]
    · exact congrArg Client.remaining (remaining_setClient_ne hk c s)

/-- One step answers the request in front of what remains, or none. -/
lemma books_of_step (hpos : ∀ k, 0 < typ k) (h : Inv typ s) (k : κ)
    (hs : step typ s a = some (s', o)) :
    requestsOf k o ++ (s'.client k).remaining.map some = (s.client k).remaining.map some := by
  cases a with
  | line j =>
      rw [remaining_line hpos hs, (line_cases hpos hs).1]
      rfl
  | receive j =>
      obtain ⟨hpc, q, queue, hr, he⟩ := receive_cases hs
      obtain ⟨rfl, rfl⟩ := Prod.mk.inj he
      by_cases hk : k = j
      · subst hk
        obtain ⟨-, ⟨text, htext, -⟩, -⟩ := h.taken hpc hr
        simp [requestsOf, System.setClient, Client.remaining, hpc, htext]
      · have hother : ¬ j = k := fun he => hk he.symm
        have hclient : ({ s.setClient j { s.client j with pc := .prompt } with
            queue := queue } : System κ).client k = s.client k := Function.update_of_ne hk _ _
        rw [hclient]
        simp [requestsOf, hother]
  | serve =>
      obtain ⟨rfl, -, q, queue, m, -, -, rfl⟩ := serve_cases h hs
      rfl
  | reply =>
      obtain ⟨rfl, m, -, rfl⟩ := reply_cases h hs
      rfl

/-! ### Getting to the end -/

/-- All clients have left. -/
def System.Finished (s : System κ) : Prop := ∀ k, (s.client k).pc = .stopped

/-- The steps that a message costs until it is an answer in the queue. -/
def Queued.due (q : Queued κ) : ℕ :=
  match q.sender with
  | .server => 0
  | .client _ => 2

/-- A line of the input is at least one byte, and costs four steps. -/
def Client.due (c : Client) : ℕ :=
  match c.pc with
  | .prompt => 4 * c.stdin.length + 1
  | .waiting => 4 * c.stdin.length + 2
  | .stopped => 0

/-- The steps to the end when every answer is taken as soon as it is in front. -/
def System.due [Fintype κ] (s : System κ) : ℕ :=
  ∑ k, (s.client k).due + (s.queue.map Queued.due).sum + s.out.toList.length

/-- The invariant, with the server at work. -/
structure Alive (typ : κ → ℕ) (s : System κ) : Prop where
  inv : Inv typ s
  running : s.running = true

omit [DecidableEq κ] in
lemma alive_start (typ : κ → ℕ) (stdin : κ → List Byte) : Alive typ (start stdin) :=
  ⟨inv_start typ stdin, rfl⟩

lemma Alive.of_step (hinj : Function.Injective typ) (hpos : ∀ k, 0 < typ k) (h : Alive typ s)
    (hs : step typ s a = some (s', o)) : Alive typ s' := by
  refine ⟨(h.inv.step hinj hs).1, ?_⟩
  have hrunning := h.running
  cases a with
  | line j =>
      obtain ⟨-, -, c, ⟨rfl, -⟩ | ⟨text, rfl, -⟩⟩ := line_cases hpos hs
      · exact hrunning
      · exact hrunning
  | receive j =>
      obtain ⟨-, q, queue, -, he⟩ := receive_cases hs
      obtain ⟨rfl, -⟩ := Prod.mk.inj he
      exact hrunning
  | serve =>
      obtain ⟨-, -, q, queue, m, -, -, rfl⟩ := serve_cases h.inv hs
      exact hrunning
  | reply =>
      obtain ⟨-, m, -, rfl⟩ := reply_cases h.inv hs
      exact hrunning

/-- What is due for the clients when one of them moves. -/
lemma sum_due_update [Fintype κ] (client : κ → Client) (k : κ) (c : Client) :
    ∑ j, (Function.update client k c j).due + (client k).due = ∑ j, (client j).due + c.due :=
  Mutex.sum_update Client.due client k c

/-- A client at its prompt takes a line, or leaves. -/
lemma exists_line [Fintype κ] (hpos : ∀ k, 0 < typ k) {k : κ}
    (hpc : (s.client k).pc = .prompt) :
    ∃ s', step typ s (.line k) = some (s', []) ∧ s'.due < s.due := by
  have hdue : (s.client k).due = 4 * (s.client k).stdin.length + 1 := by rw [Client.due, hpc]
  rw [step, if_pos hpc]
  cases hf : fgets (bufSize - 1) (s.client k).stdin with
  | none =>
      refine ⟨_, rfl, ?_⟩
      have hsum := sum_due_update s.client k ⟨.stopped, (s.client k).wdata, (s.client k).stdin⟩
      have hc : (Client.mk .stopped (s.client k).wdata (s.client k).stdin).due = 0 := rfl
      simp only [System.due, System.setClient]
      omega
  | some r =>
      obtain ⟨line, rest⟩ := r
      have hlt := fgets_length_lt (by decide) hf
      have hsnd : ∀ text, msgsnd s.queue (.client k) ⟨typ k, terminated text⟩ =
          some (s.queue ++ [⟨.client k, ⟨typ k, terminated text⟩⟩]) := fun _ => if_pos (hpos k)
      simp only [System.clientLine, take_write_line, str_write_line, hsnd]
      split_ifs
      · refine ⟨_, rfl, ?_⟩
        have hsum := sum_due_update s.client k
          ⟨.stopped, write (terminated line) (s.client k).wdata, rest⟩
        have hc : (Client.mk .stopped (write (terminated line) (s.client k).wdata) rest).due = 0 :=
          rfl
        simp only [System.due, System.setClient]
        omega
      · refine ⟨_, rfl, ?_⟩
        have hsum := sum_due_update s.client k
          ⟨.waiting, write (terminated line) (s.client k).wdata, rest⟩
        have hc : (Client.mk .waiting (write (terminated line) (s.client k).wdata) rest).due =
          4 * rest.length + 2 := rfl
        have hmsg : (Queued.mk (.client k)
          ⟨typ k, terminated (line.takeWhile (· ≠ 0))⟩ : Queued κ).due = 2 := rfl
        simp only [System.due, System.setClient, List.map_append, List.map_cons, List.map_nil,
          List.sum_append, List.sum_cons, List.sum_nil, hmsg]
        omega

/-- The server sends the answer that it holds. -/
lemma exists_reply [Fintype κ] {m : MsqBuf} (hout : s.out = some m) :
    ∃ s', step typ s .reply = some (s', []) ∧ s'.due < s.due := by
  refine ⟨_, by rw [step, hout], ?_⟩
  have hqueue : (((msgsnd s.queue .server m).getD s.queue).map Queued.due).sum =
      (s.queue.map Queued.due).sum := by
    rw [msgsnd]
    split_ifs
    · simp [Queued.due]
    · rfl
  simp [System.due, hout, hqueue]

/-- The request in front is served. -/
lemma Alive.exists_serve [Fintype κ] {q : Queued κ} {queue : List (Queued κ)} {k : κ}
    (h : Alive typ s) (hout : s.out = none) (hq : s.queue = q :: queue)
    (hsender : q.sender = .client k) :
    ∃ s', step typ s .serve = some (s', []) ∧ s'.due < s.due := by
  obtain ⟨m, -, hm⟩ := h.inv.exists_answer hout hq
  have hr : MsgQueue.receive Queued.mtype 0 s.queue = some (q, queue) := by
    simp [MsgQueue.receive, wanted, hq]
  refine ⟨s.serverTake q queue, ?_, ?_⟩
  · rw [step, if_pos ⟨h.running, hout⟩, hr, Option.map_some]
  · have hmsg : q.due = 2 := by rw [Queued.due, hsender]
    simp only [System.due, hm, hq, hout, List.map_cons, List.sum_cons, hmsg, Option.toList_some,
      Option.toList_none, List.length_singleton, List.length_nil]
    omega

/-- Whatever a client takes, the end is nearer. -/
lemma due_clientTake [Fintype κ] {q : Queued κ} {queue : List (Queued κ)} {k : κ}
    (hpc : (s.client k).pc = .waiting)
    (hr : MsgQueue.receive Queued.mtype (typ k) s.queue = some (q, queue)) :
    (s.clientTake k q queue).1.due < s.due := by
  have hsum := sum_due_update s.client k ⟨.prompt, (s.client k).wdata, (s.client k).stdin⟩
  have hbefore : (s.client k).due = 4 * (s.client k).stdin.length + 2 := by rw [Client.due, hpc]
  have hafter : (Client.mk .prompt (s.client k).wdata (s.client k).stdin).due =
    4 * (s.client k).stdin.length + 1 := rfl
  have hqueue : (s.queue.map Queued.due).sum = q.due + (queue.map Queued.due).sum :=
    ((receive_perm hr).map Queued.due).sum_eq
  simp only [System.due, System.clientTake, System.setClient, hqueue]
  omega

/-- The answer in front is taken. -/
lemma exists_take [Fintype κ] {q : Queued κ} {queue : List (Queued κ)} {k : κ}
    (hpc : (s.client k).pc = .waiting) (hk : q.mtype = typ k) (hq : s.queue = q :: queue)
    (hsender : q.sender = .server) :
    ∃ s' o, step typ s (.receive k) = some (s', o) ∧ s'.due < s.due ∧
      Served typ s (.receive k) := by
  have hr : MsgQueue.receive Queued.mtype (typ k) s.queue = some (q, queue) := by
    simp [MsgQueue.receive, wanted, hq, hk]
  refine ⟨(s.clientTake k q queue).1, (s.clientTake k q queue).2, ?_, due_clientTake hpc hr,
    fun r hr' => ?_⟩
  · rw [step, if_pos hpc, hr, Option.map_some]
  · obtain rfl := Option.some.inj (hr.symm.trans hr')
    exact Or.inl hsender

omit [DecidableEq κ] in
/-- A client that does not wait is at its prompt, when nothing is on its way. -/
lemma Inv.exists_prompt (h : Inv typ s) (hflight : s.flight = []) (hfin : ¬ s.Finished) :
    ∃ k, (s.client k).pc = .prompt := by
  obtain ⟨k, hk⟩ := not_forall.1 hfin
  refine ⟨k, ?_⟩
  cases hpc : (s.client k).pc with
  | prompt => rfl
  | stopped => exact absurd hpc hk
  | waiting =>
      obtain ⟨-, -, q, -, hone, -⟩ := (h.exchange k).busy hpc
      rw [hflight] at hone
      cases hone

/-- Some step brings the system nearer to its end, and what it prints is right. -/
lemma Alive.exists_step [Fintype κ] (hinj : Function.Injective typ) (hpos : ∀ k, 0 < typ k)
    (h : Alive typ s) (hfin : ¬ s.Finished) :
    ∃ a s' o, step typ s a = some (s', o) ∧ Alive typ s' ∧ s'.due < s.due ∧ ∀ x ∈ o, x.Right := by
  obtain ⟨a, s', o, hs, hdue, hserved⟩ : ∃ a s' o, step typ s a = some (s', o) ∧
      s'.due < s.due ∧ Served typ s a := by
    cases hout : s.out with
    | some m =>
        obtain ⟨s', hs, hdue⟩ := @exists_reply _ _ typ _ _ _ hout
        exact ⟨.reply, s', [], hs, hdue, trivial⟩
    | none =>
        cases hq : s.queue with
        | nil =>
            obtain ⟨k, hpc⟩ := h.inv.exists_prompt (by rw [System.flight_none hout, hq]) hfin
            obtain ⟨s', hs, hdue⟩ := exists_line hpos hpc
            exact ⟨.line k, s', [], hs, hdue, trivial⟩
        | cons q queue =>
            have hflight : s.flight = q :: queue := by rw [System.flight_none hout, hq]
            obtain ⟨k, hk⟩ := h.inv.known q (hflight ▸ List.mem_cons_self)
            have hex := h.inv.exchange k
            rw [hflight, ofType_cons_self hk] at hex
            obtain ⟨hpc, -, -, text, -, hans⟩ := hex.cons
            rcases hans with ⟨hsender, -⟩ | ⟨hsender, -⟩
            · obtain ⟨s', hs, hdue⟩ := h.exists_serve hout hq hsender
              exact ⟨.serve, s', [], hs, hdue, trivial⟩
            · exact ⟨.receive k, exists_take hpc hk hq hsender⟩
  exact ⟨a, s', o, hs, h.of_step hinj hpos hs, hdue, (h.inv.step hinj hs).2.2 hserved⟩

omit [DecidableEq κ] in
/-- When all clients have left, no message is left behind. -/
lemma Inv.queue_eq_nil (h : Inv typ s) (hfin : s.Finished) : s.queue = [] := by
  refine List.eq_nil_iff_forall_not_mem.2 fun q hq => ?_
  have hmem : q ∈ s.flight := List.mem_append_right _ hq
  obtain ⟨k, hk⟩ := h.known q hmem
  have hnil := (h.exchange k).idle (by rw [hfin k]; decide)
  exact List.not_mem_nil (hnil ▸ mem_ofType.2 ⟨hmem, hk⟩)

/-- Behind what a client was answered there is what remains. -/
lemma books_of_run (hinj : Function.Injective typ) (hpos : ∀ k, 0 < typ k)
    (stdin : κ → List Byte) {as : List (Action κ)} {os : List (Reply κ)}
    (hrun : run (step typ) (start stdin) as = some (s, os)) (k : κ) :
    requestsOf k os ++ (s.client k).remaining.map some = (texts (stdin k)).map some := by
  have hbooks := run_books (f := fun _ _ => []) (g := fun s => (s.client k).remaining.map some)
    rfl requestsOf_append (fun s a s' o hI hs => ⟨(hI.step hinj hs).1, by
      rw [List.append_nil]
      exact books_of_step hpos hI k hs⟩) (inv_start typ stdin) hrun
  rwa [logged_eq_nil, List.append_nil] at hbooks

/-- **Sessions.**  Clients with different types, any inputs, any order of the steps so far.  What a
client was answered are its first texts, in their order, and all of them if it has left.  And the
system can go on to the end: there all clients have left, the queue is empty, every text was
answered, and whatever was printed on the way there is right. -/
theorem sessions_finish [Fintype κ] (hinj : Function.Injective typ) (hpos : ∀ k, 0 < typ k)
    (stdin : κ → List Byte) {as : List (Action κ)} {os : List (Reply κ)}
    (hrun : run (step typ) (start stdin) as = some (s, os)) :
    (∀ k, requestsOf k os ++ (s.client k).remaining.map some = (texts (stdin k)).map some) ∧
      ∃ as' s' os', run (step typ) s as' = some (s', os') ∧ s'.Finished ∧ s'.queue = [] ∧
        (∀ x ∈ os', x.Right) ∧
        ∀ k, requestsOf k (os ++ os') = (texts (stdin k)).map some := by
  have halive : Alive typ s := Reaches.of_invariant (fun _ _ _ _ hI hs => hI.of_step hinj hpos hs)
    (alive_start typ stdin) ⟨as, os, hrun⟩
  obtain ⟨as', s', os', hrun', halive', hfin, hright⟩ := exists_run System.due
    (fun s hI hF => hI.exists_step hinj hpos hF) halive
  refine ⟨books_of_run hinj hpos stdin hrun, as', s', os', hrun', hfin,
    halive'.inv.queue_eq_nil hfin, hright, fun k => ?_⟩
  have hall := books_of_run hinj hpos stdin (run_append hrun hrun') k
  rwa [show (s'.client k).remaining = [] by rw [Client.remaining, hfin k], List.map_nil,
    List.append_nil] at hall

end

/-- Two clients have sent a line each, and the server has taken the first. -/
theorem sessions_finish_two : ∃ s os,
    run (step fun k : Bool => clientType k.toNat) (start fun k => [cond k 98 97, 10])
      [.line false, .line true, .serve] = some (s, os) ∧
    ∃ as' s' os', run (step fun k : Bool => clientType k.toNat) s as' = some (s', os') ∧
      s'.Finished ∧ ∀ x ∈ os', x.Right := by
  have hinj : Function.Injective fun k : Bool => clientType k.toNat := by
    intro j k
    revert j k
    decide
  refine ⟨_, _, rfl, ?_⟩
  have hpos : ∀ k : Bool, 0 < clientType k.toNat := fun k => Nat.lt_add_right _ (by decide)
  obtain ⟨-, as', s', os', hrun, hfin, -, hright, -⟩ := @sessions_finish Bool _ _ _ _ hinj hpos
    (fun k => [cond k 98 97, 10]) [.line false, .line true, .serve] _ rfl
  exact ⟨as', s', os', hrun, hfin, hright⟩

end EchoServer

end DemoClass
