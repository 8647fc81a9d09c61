import DemoClass.Chatroom.System
import Mathlib.Data.Fintype.Basic

/-!
# Who takes whose messages

A message of type `MY_TYPE` is meant for the server, and a message with the type of a
client's id for the client.  The programs do not keep to this: the server takes
messages of every type, a client sends `s_buf` with the type that its last message
had, and `chat` sends it with the type of the addressee.  So a party can take a
message that was not meant for it (`server_takes_own_broadcast`).

`Meets` says that a step does not come to this.  When all steps of a run are so,
the server takes messages of clients only, and clients take messages of the server
only (`run_routed`), for any number of clients.
-/

namespace DemoClass

namespace Chatroom

open CString Runs

variable {κ : Type}

/-- The server takes what a client sent, and a client what the server sent. -/
def Taken.Routed (t : Taken κ) : Prop :=
  match t.receiver with
  | .server => ∃ k, t.message.sender = .client k
  | .client _ => t.message.sender = .server

/-- A step keeps to the types: login and list are sent with the type `MY_TYPE`, chat is
not sent with the type of a client, and the server takes a message of type `MY_TYPE`. -/
def Meets (pid : κ → ℕ) (s : System κ) : Action κ → Prop
  | .login k _ => (s.client k).sBuf.mtype = myType
  | .list k => (s.client k).sBuf.mtype = myType
  | .chat _ dst_id _ => ∀ k, dst_id ≠ clientId (pid k)
  | .receive => ∀ q ∈ s.queue.head?, q.msg.mtype = myType
  | .poll _ | .listed _ | .other _ | .send => True

instance [Fintype κ] (pid : κ → ℕ) (s : System κ) : ∀ a, Decidable (Meets pid s a)
  | .login k _ => inferInstanceAs (Decidable ((s.client k).sBuf.mtype = myType))
  | .list k => inferInstanceAs (Decidable ((s.client k).sBuf.mtype = myType))
  | .chat _ dst_id _ => inferInstanceAs (Decidable (∀ k, dst_id ≠ clientId (pid k)))
  | .receive => inferInstanceAs (Decidable (∀ q ∈ s.queue.head?, q.msg.mtype = myType))
  | .poll _ | .listed _ | .other _ | .send => isTrue trivial

/-! ### The texts that the server gets -/

/-- The front of a message of type `MY_TYPE`. -/
inductive ClientText : List Char → Prop
  | login {id : ℕ} (rest : List Char) : 1 < id → id < 100 →
      ClientText (['l', ':', '0', '0', ':'] ++ (decimal id ++ '#' :: rest))
  | list {id : ℕ} (rest : List Char) : 1 < id → id < 100 →
      ClientText (['L', ':'] ++ (decimal id ++ ':' :: rest))
  | chat (rest : List Char) : ClientText (['C', ':', '1', ':'] ++ rest)

lemma ClientText.append {t : List Char} (h : ClientText t) (rest : List Char) :
    ClientText (t ++ rest) := by
  cases h with
  | login r h₁ h₂ => simpa using ClientText.login (r ++ rest) h₁ h₂
  | list r h₁ h₂ => simpa using ClientText.list (r ++ rest) h₁ h₂
  | chat r => simpa using ClientText.chat (r ++ rest)

/-- A short front of a text is sent as it is printed. -/
lemma sent_print_append (buf : MsgBuf) (pre : List Char) (hlen : pre.length < bufSize)
    (hnul : nul ∉ pre) (text : List Char) :
    ∃ rest, (buf.print (pre ++ text)).sent.mtext = pre ++ rest := by
  have htake : (pre ++ text).take (bufSize - 1) = pre ++ text.take (bufSize - 1 - pre.length) := by
    rw [List.take_append, List.take_of_length_le (by omega)]
  have hpre : ∀ c ∈ pre, decide (c ≠ nul) = true := by
    intro c hc
    exact decide_eq_true fun he => hnul (he ▸ hc)
  refine ⟨terminated ((text.take (bufSize - 1 - pre.length)).takeWhile (· ≠ nul)), ?_⟩
  rw [MsgBuf.sent, MsgBuf.print, takeWhile_snprintf, htake, List.takeWhile_append_of_pos hpre,
    terminated, terminated, List.append_assoc]

lemma clientText_login (buf : MsgBuf) {id : ℕ} (h₁ : 1 < id) (h₂ : id < 100) (name : List Char) :
    ClientText (buf.print (loginText id name)).sent.mtext := by
  have hlen : (decimal (id : ℤ)).length ≤ 2 := length_decimal_le (by decide) h₂
  have hnul : Char.ofNat 0 ∉ decimal (id : ℤ) := nul_notMem_decimal id
  obtain ⟨rest, hrest⟩ := sent_print_append buf
    (['l', ':', '0', '0', ':'] ++ (decimal id ++ ['#'])) (by simp [bufSize]; omega)
    (by simp [nul, hnul]) name
  have ht : loginText id name = ['l', ':', '0', '0', ':'] ++ (decimal id ++ ['#']) ++ name := by
    simp [loginText]
  rw [ht, hrest]
  simpa using ClientText.login rest h₁ h₂

lemma clientText_list (buf : MsgBuf) {id : ℕ} (h₁ : 1 < id) (h₂ : id < 100) :
    ClientText (buf.print (listText id)).sent.mtext := by
  have hlen : (decimal (id : ℤ)).length ≤ 2 := length_decimal_le (by decide) h₂
  have hnul : Char.ofNat 0 ∉ decimal (id : ℤ) := nul_notMem_decimal id
  obtain ⟨rest, hrest⟩ := sent_print_append buf (['L', ':'] ++ (decimal id ++ [':']))
    (by simp [bufSize]; omega) (by simp [nul, hnul]) []
  rw [List.append_nil] at hrest
  rw [listText, hrest]
  simpa using ClientText.list rest h₁ h₂

lemma clientText_chat (buf : MsgBuf) (text : List Char) :
    ClientText (buf.print (chatText myType text)).sent.mtext := by
  obtain ⟨rest, hrest⟩ := sent_print_append buf ['C', ':', '1', ':'] (by decide) (by decide) text
  have ht : chatText myType text = ['C', ':', '1', ':'] ++ text := rfl
  rw [ht, hrest]
  exact ClientText.chat rest

/-- What the server makes of such a text: the ids of its users stay above `MY_TYPE`, and
it sends nothing with the type `MY_TYPE`. -/
lemma msgHandler_clientText {s s' : Server} {out : List MsgBuf} (ht : ClientText s.sBuf.mtext)
    (hu : ∀ u ∈ s.head, myType < u.id) (h : msgHandler s = some (s', out)) :
    (∀ u ∈ s'.head, myType < u.id) ∧ ∀ m ∈ out, m.mtype ≠ myType := by
  generalize hs : s.sBuf.mtext = t at ht
  cases ht with
  | @login id rest h₁ h₂ =>
      obtain ⟨hhead, hout⟩ := msgHandler_login h₂ hs h
      have hu' : ∀ u ∈ s'.head, myType < u.id := by
        intro u hmem
        rcases hhead u hmem with hmem | hid
        · exact hu u hmem
        · rw [hid, myType]
          omega
      refine ⟨hu', fun m hm => ?_⟩
      obtain ⟨u, hmem, hid⟩ := hout m hm
      rw [hid]
      exact (hu' u hmem).ne'
  | @list id rest h₁ h₂ =>
      obtain ⟨hhead, hout⟩ := msgHandler_list h₂ hs h
      refine ⟨hhead ▸ hu, fun m hm => ?_⟩
      rw [hout m hm, myType]
      omega
  | chat rest =>
      have hone : 1 < 100 := by decide
      obtain ⟨hhead, hout⟩ := msgHandler_chat hone hs h
      refine ⟨hhead ▸ hu, fun m hm => ?_⟩
      rw [hout m hm]
      decide

/-! ### The invariant -/

/-- A message in the queue that reaches the right side by its type. -/
structure Directed (pid : κ → ℕ) (q : Queued κ) : Prop where
  toServer : q.msg.mtype = myType → (∃ k, q.sender = .client k) ∧ ClientText q.msg.mtext
  toClient : ∀ k, q.msg.mtype = clientId (pid k) → q.sender = .server

structure Inv (pid : κ → ℕ) (s : System κ) : Prop where
  queue : ∀ q ∈ s.queue, Directed pid q
  users : ∀ u ∈ s.server.head, myType < u.id
  out : ∀ m ∈ s.out, m.mtype ≠ myType

variable {pid : κ → ℕ} {s s' : System κ} {queue rest : List (Queued κ)} {q : Queued κ}

lemma inv_start (pid : κ → ℕ) (junk : Party κ → ℕ → Char) : Inv pid (start junk) :=
  ⟨by simp [start], by simp [start], by simp [start]⟩

lemma directed_msgsnd {p : Party κ} {msg : MsgBuf} (h : ∀ q ∈ queue, Directed pid q)
    (hmsg : Directed pid ⟨p, msg⟩) : ∀ q ∈ msgsnd queue p msg, Directed pid q := by
  intro q hq
  rw [msgsnd] at hq
  split at hq
  · rcases List.mem_append.1 hq with hq | hq
    · exact h q hq
    · obtain rfl := List.mem_singleton.1 hq
      exact hmsg
  · exact h q hq

/-- A message that is sent by the server, with another type than `MY_TYPE`. -/
lemma directed_server {msg : MsgBuf} (h : msg.mtype ≠ myType) : Directed pid ⟨.server, msg⟩ :=
  ⟨fun he => absurd he h, fun _ _ => rfl⟩

/-- A text for the server that a client sends with the type `MY_TYPE`. -/
lemma directed_client (hid : ∀ k, myType < clientId (pid k)) {k : κ} {msg : MsgBuf}
    (hm : msg.mtype = myType) (ht : ClientText msg.mtext) : Directed pid ⟨.client k, msg⟩ := by
  refine ⟨fun _ => ⟨⟨k, rfl⟩, ht⟩, fun k' he => ?_⟩
  exact absurd (hm.symm.trans he) (hid k').ne

/-- The message that `msgrcv` takes was in the queue, and the others stay there. -/
lemma msgrcv_message {msgsz msgtyp : ℕ} (h : msgrcv queue msgsz msgtyp = .message q rest) :
    q ∈ queue ∧ rest ⊆ queue ∧ (msgtyp ≠ 0 → q.msg.mtype = msgtyp) ∧
      (msgtyp = 0 → queue.head? = some q) := by
  rw [msgrcv] at h
  cases hf : queue.find? (wanted msgtyp) with
  | none => simp [hf] at h
  | some q' =>
      rw [hf] at h
      by_cases hsz : q'.msg.mtext.length ≤ msgsz
      · obtain ⟨rfl, rfl⟩ : q' = q ∧ queue.eraseP (wanted msgtyp) = rest := by simpa [hsz] using h
        refine ⟨List.mem_of_find?_eq_some hf, fun _ => List.mem_of_mem_eraseP, fun h0 => ?_,
          fun h0 => ?_⟩
        · simpa [wanted, h0] using List.find?_some hf
        · cases queue with
          | nil => simp at hf
          | cons q₀ queue => simpa [wanted, h0] using hf
      · simp [hsz] at h

variable [DecidableEq κ]

lemma Inv.goto (h : Inv pid s) (k : κ) (pc : ClientPc) : Inv pid (s.goto k pc) :=
  ⟨h.queue, h.users, h.out⟩

lemma Inv.clientSend (h : Inv pid s) {k : κ} {buf : MsgBuf} (pc : ClientPc)
    (hbuf : Directed pid ⟨.client k, buf.sent⟩) : Inv pid (s.clientSend k buf pc) :=
  ⟨directed_msgsnd h.queue hbuf, h.users, h.out⟩

/-- A client that takes a message by its id takes one of the server. -/
lemma Inv.clientTake (h : Inv pid s) (hid : ∀ k, myType < clientId (pid k)) {k : κ} {msgsz : ℕ}
    (hr : msgrcv s.queue msgsz (clientId (pid k)) = .message q rest) (pc : ClientPc) :
    Inv pid (s.clientTake k q rest pc) ∧ (Taken.mk (.client k) q).Routed := by
  have hne : clientId (pid k) ≠ 0 := by
    have hk := hid k
    rw [myType] at hk
    omega
  obtain ⟨hq, hrest, htype, -⟩ := msgrcv_message hr
  exact ⟨⟨fun q' hq' => h.queue q' (hrest hq'), h.users, h.out⟩,
    (h.queue q hq).toClient k (htype hne)⟩

omit [DecidableEq κ] in
/-- The server that takes a message of type `MY_TYPE` takes one of a client. -/
lemma Inv.serverTake (h : Inv pid s) {msgsz : ℕ}
    (hr : msgrcv s.queue msgsz 0 = .message q rest) (hq1 : q.msg.mtype = myType) :
    Inv pid (s.serverTake q rest) ∧ (Taken.mk (.server : Party κ) q).Routed := by
  obtain ⟨hq, hrest, -, -⟩ := msgrcv_message hr
  obtain ⟨hsender, htext⟩ := (h.queue q hq).toServer hq1
  refine ⟨?_, hsender⟩
  have hqueue : ∀ q' ∈ rest, Directed pid q' := fun q' hq' => h.queue q' (hrest hq')
  -- the rest of the old text in the buffer stays behind the new one
  have htext' : ClientText (s.server.sBuf.receive q.msg).mtext := htext.append _
  rw [System.serverTake]
  cases hh : msgHandler { s.server with sBuf := s.server.sBuf.receive q.msg } with
  | none => exact ⟨hqueue, h.users, h.out⟩
  | some r =>
      obtain ⟨hu, ho⟩ := msgHandler_clientText
        (s := ⟨s.server.sBuf.receive q.msg, s.server.head⟩) htext' h.users hh
      exact ⟨hqueue, hu, ho⟩

/-- A step takes a message, sends one, or does neither. -/
inductive Effect (pid : κ → ℕ) (s : System κ) : Action κ → System κ → List (Taken κ) → Prop
  | goto (a : Action κ) (k : κ) (pc : ClientPc) : Effect pid s a (s.goto k pc) []
  | clientTake (a : Action κ) {k : κ} {q : Queued κ} {queue : List (Queued κ)} (pc : ClientPc) :
      msgrcv s.queue bufSize (clientId (pid k)) = .message q queue →
      Effect pid s a (s.clientTake k q queue pc) [⟨.client k, q⟩]
  | login (k : κ) (name : List Char) : Effect pid s (.login k name)
      (s.clientSend k ((s.client k).sBuf.print (loginText (clientId (pid k)) name)) .poll) []
  | list (k : κ) : Effect pid s (.list k)
      (s.clientSend k ((s.client k).sBuf.print (listText (clientId (pid k)))) .listing) []
  | chat (k : κ) (dst_id : ℤ) (buf : List Char) : Effect pid s (.chat k dst_id buf)
      (s.clientSend k (({ (s.client k).sBuf with mtype := dst_id } : MsgBuf).print
        (chatText dst_id buf)) .poll) []
  | serverTake {q : Queued κ} {queue : List (Queued κ)} :
      msgrcv s.queue bufSize 0 = .message q queue →
      Effect pid s .receive (s.serverTake q queue) [⟨.server, q⟩]
  | stop : Effect pid s .receive { s with running := false } []
  | serverSend {m : MsgBuf} {ms : List MsgBuf} : s.out = m :: ms →
      Effect pid s .send { s with queue := msgsnd s.queue .server m, out := ms } []

lemma effect_of_step {a : Action κ} {ts : List (Taken κ)} (hs : step pid s a = some (s', ts)) :
    Effect pid s a s' ts := by
  cases a with
  | poll k =>
      rw [step] at hs
      split at hs
      · split at hs
        · next hr =>
          cases hs
          exact .clientTake _ _ hr
        · cases hs
          exact .goto _ k _
        · cases hs
          exact .goto _ k _
      · cases hs
  | login k name =>
      rw [step] at hs
      split at hs
      · split at hs
        · cases hs
          exact .login k name
        · cases hs
          exact .goto _ k _
      · cases hs
  | list k =>
      rw [step] at hs
      split at hs
      · cases hs
        exact .list k
      · cases hs
  | listed k =>
      rw [step] at hs
      split at hs
      · split at hs
        · next hr =>
          cases hs
          exact .clientTake _ _ hr
        · cases hs
          exact .goto _ k _
        · cases hs
      · cases hs
  | chat k dst_id buf =>
      rw [step] at hs
      split at hs
      · split at hs
        · cases hs
          exact .chat k dst_id buf
        · cases hs
          exact .goto _ k _
      · cases hs
  | other k =>
      rw [step] at hs
      split at hs
      · cases hs
        exact .goto _ k _
      · cases hs
  | receive =>
      rw [step] at hs
      split at hs
      · split at hs
        · next hr =>
          cases hs
          exact .serverTake hr
        · cases hs
          exact .stop
        · cases hs
      · cases hs
  | send =>
      rw [step] at hs
      split at hs
      · cases hs
      · next hout =>
        cases hs
        exact .serverSend hout

/-- One step. -/
lemma Inv.step (hid : ∀ k, myType < clientId (pid k)) (h : Inv pid s) {a : Action κ}
    (hm : Meets pid s a) {ts : List (Taken κ)} (hs : step pid s a = some (s', ts)) :
    Inv pid s' ∧ ∀ t ∈ ts, t.Routed := by
  have hidk : ∀ k, 1 < clientId (pid k) := fun k => by
    have hk := hid k
    rw [myType] at hk
    omega
  have hid100 : ∀ k, clientId (pid k) < 100 := fun k => Nat.mod_lt _ (by decide)
  cases effect_of_step hs with
  | goto _ k pc => exact ⟨h.goto k pc, by simp⟩
  | clientTake _ pc hr =>
      obtain ⟨hI, hT⟩ := h.clientTake hid hr pc
      exact ⟨hI, by simpa using hT⟩
  | login k name =>
      refine ⟨h.clientSend _ (directed_client hid ?_ ?_), by simp⟩
      · exact hm
      · exact clientText_login _ (hidk k) (hid100 k) name
  | list k =>
      refine ⟨h.clientSend _ (directed_client hid ?_ ?_), by simp⟩
      · exact hm
      · exact clientText_list _ (hidk k) (hid100 k)
  | chat k dst_id buf =>
      refine ⟨h.clientSend _ ⟨fun h1 => ⟨⟨k, rfl⟩, ?_⟩, fun k' hk' => ?_⟩, by simp⟩
      · obtain rfl : dst_id = myType := h1
        exact clientText_chat _ buf
      · exact absurd hk' (hm k')
  | serverTake hr =>
      obtain ⟨hI, hT⟩ := h.serverTake hr (hm _ ((msgrcv_message hr).2.2.2 rfl))
      exact ⟨hI, by simpa using hT⟩
  | stop => exact ⟨⟨h.queue, h.users, h.out⟩, by simp⟩
  | @serverSend m ms hout =>
      -- no answer has the type `MY_TYPE`, so the server does not take it itself
      have hne : m.mtype ≠ myType := h.out m (by simp [hout])
      refine ⟨⟨directed_msgsnd h.queue (directed_server hne), h.users, fun m' hm' => ?_⟩, by simp⟩
      exact h.out m' (by simp [hout, hm'])

/-- **Routing.**  Clients with ids above `MY_TYPE`, any interleaving of their steps with
those of the server: if every step keeps to the types, every message that is taken
comes from the other side. -/
theorem run_routed (pid : κ → ℕ) (hid : ∀ k, myType < clientId (pid k))
    (junk : Party κ → ℕ → Char) (as : List (Action κ)) (s : System κ) (ts : List (Taken κ))
    (hrun : run (step pid) (start junk) as = some (s, ts))
    (hmeets : AllMeet (step pid) (Meets pid) (start junk) as) : ∀ t ∈ ts, t.Routed :=
  (run_of_invariant (fun _ _ _ _ hI hC hs => Inv.step hid hI hC hs) (inv_start pid junk) hmeets
    hrun).2

/-- One client with the id 2 logs in, and takes the broadcast of the server. -/
theorem run_routed_login :
    ∃ s ts, run (step fun _ : Unit => 2) (start fun _ _ => nul)
      [.poll (), .login () ['a'], .receive, .send, .poll (), .other ()] = some (s, ts) ∧
        ts.length = 2 ∧ ∀ t ∈ ts, t.Routed := by
  have hlen : ((run (step fun _ : Unit => 2) (start fun _ _ => nul)
      [.poll (), .login () ['a'], .receive, .send, .poll (), .other ()]).map fun r => r.2.length) =
        some 2 := by decide +kernel
  obtain ⟨⟨s, ts⟩, hrun, hts⟩ := Option.map_eq_some_iff.1 hlen
  refine ⟨s, ts, hrun, hts, ?_⟩
  exact run_routed (fun _ : Unit => 2) (fun _ => by decide) (fun _ _ => nul) _ s ts hrun
    (by decide +kernel)

/-- The server does not leave its broadcast to the client, which has the id 2. -/
theorem server_takes_own_broadcast : myType < clientId 2 ∧
    ∃ s ts, run (step fun _ : Unit => 2) (start fun _ _ => nul)
      [.poll (), .login () ['a'], .receive, .send, .receive] = some (s, ts) ∧
        ¬ ∀ t ∈ ts, t.Routed := by
  have hparties : ((run (step fun _ : Unit => 2) (start fun _ _ => nul)
      [.poll (), .login () ['a'], .receive, .send, .receive]).map
        fun r => r.2.map fun t => (t.receiver, t.message.sender)) =
        some [(.server, .client ()), (.server, .server)] := by decide +kernel
  obtain ⟨⟨s, ts⟩, hrun, hts⟩ := Option.map_eq_some_iff.1 hparties
  refine ⟨by decide, s, ts, hrun, fun hall => ?_⟩
  have hmem : ((.server, .server) : Party Unit × Party Unit) ∈
      ts.map fun t => (t.receiver, t.message.sender) := by
    rw [show ts.map _ = _ from hts]
    simp
  obtain ⟨⟨r, q⟩, ht, hpair⟩ := List.mem_map.1 hmem
  obtain ⟨rfl, hq⟩ : r = .server ∧ q.sender = .server := by simpa using hpair
  obtain ⟨k, hk⟩ : ∃ k, q.sender = .client k := hall _ ht
  exact absurd (hq.symm.trans hk) (by simp)

end Chatroom

end DemoClass
