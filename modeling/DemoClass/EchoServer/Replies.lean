import DemoClass.EchoServer.System
import Mathlib.Algebra.Order.Ring.Nat

/-!
# What a client gets back

Of every client that waits there is one message on its way: its request, or the answer to
it (`Inv`).  A request has the same type as its answer, so a client can take its own request
out of the queue before the server does.  What it prints is then the request as it was: it
is the text in upper case just when every client takes a message of the server, or has sent
no lower-case letter (`replies_upper_iff`).

The server takes its own answers too.  This does no harm: a text in upper case stays as it is.
-/

namespace DemoClass

namespace EchoServer

open MsgQueue Runs

variable {κ : Type}

/-- A byte with a lower-case letter made upper-case. -/
def upperCased (c : Byte) : Byte :=
  if 'a'.toNat ≤ c.toNat ∧ c.toNat ≤ 'z'.toNat then
    BitVec.ofNat 8 (c.toNat - 'a'.toNat + 'A'.toNat)
  else c

/-- What a client receives for a request is the request in upper case. -/
def Reply.Right (r : Reply κ) : Prop :=
  ∃ text, r.request = some text ∧ r.text = some (text.map upperCased)

/-- A client takes a message that the server has sent, or waits for the answer to a text
without lower-case letters. -/
def Served (typ : κ → ℕ) (s : System κ) : Action κ → Prop
  | .receive k => ∀ r, MsgQueue.receive Queued.mtype (typ k) s.queue = some r →
      r.1.sender = .server ∨ ∀ text, str (s.client k).wdata = some text → ∀ c ∈ text, ¬ isLower c
  | .line _ | .serve | .reply => True

/-! ### Letters -/

variable {c : Byte} {text line mem : List Byte}

lemma toUpper_eq_upperCased (c : Byte) : toUpper c = upperCased c := by
  revert c
  decide

lemma toUpper_toUpper (c : Byte) : toUpper (toUpper c) = toUpper c := by
  revert c
  decide

lemma toUpper_eq_zero : toUpper c = 0 → c = 0 := by
  revert c
  decide

lemma toUpper_eq_self_iff : toUpper c = c ↔ ¬ isLower c := by
  revert c
  decide

lemma map_toUpper_eq_self_iff : text.map toUpper = text ↔ ∀ c ∈ text, ¬ isLower c := by
  nth_rewrite 2 [← List.map_id text]
  rw [List.map_inj_left]
  exact forall₂_congr fun c _ => toUpper_eq_self_iff

lemma zero_notMem_map (h : 0 ∉ text) : 0 ∉ text.map toUpper := by
  intro hmem
  obtain ⟨c, hc, he⟩ := List.mem_map.1 hmem
  exact h (toUpper_eq_zero he ▸ hc)

/-! ### Strings -/

lemma zero_notMem_of_str (h : str mem = some text) : 0 ∉ text := by
  induction mem generalizing text with
  | nil => cases h
  | cons c mem ih =>
      rw [str] at h
      split_ifs at h with hc
      · obtain rfl := Option.some.inj h
        exact List.not_mem_nil
      · obtain ⟨rest, hrest, rfl⟩ := Option.map_eq_some_iff.1 h
        rw [List.mem_cons, not_or]
        exact ⟨Ne.symm hc, ih hrest⟩

/-- A line ends at its first NUL. -/
lemma str_line (line mem : List Byte) :
    ∃ text, str (write (terminated line) mem) = some text ∧ text.length ≤ line.length := by
  suffices h : ∀ mem, ∃ text, str (line ++ 0 :: mem) = some text ∧ text.length ≤ line.length by
    obtain ⟨text, htext, hlen⟩ := h (mem.drop (terminated line).length)
    exact ⟨text, by simpa [write, terminated] using htext, hlen⟩
  intro mem
  induction line with
  | nil => exact ⟨[], by simp [str], Nat.le_refl 0⟩
  | cons c line ih =>
      obtain ⟨text, htext, hlen⟩ := ih
      rw [List.cons_append, str]
      split_ifs
      · exact ⟨[], rfl, Nat.zero_le _⟩
      · exact ⟨c :: text, by rw [htext, Option.map_some], Nat.succ_le_succ hlen⟩

lemma str_append_zero (h : 0 ∉ text) (mem : List Byte) : str (text ++ 0 :: mem) = some text := by
  induction text with
  | nil => simp [str]
  | cons c text ih =>
      rw [List.mem_cons, not_or] at h
      rw [List.cons_append, str, if_neg (Ne.symm h.1), ih h.2, Option.map_some]

lemma str_write_terminated (h : 0 ∉ text) (mem : List Byte) :
    str (write (terminated text) mem) = some text := by
  rw [write, terminated, List.append_assoc]
  exact str_append_zero h _

lemma upperLoop_eq (mem : List Byte) : upperLoop mem = (str mem).map (List.map toUpper) := by
  induction mem with
  | nil => rfl
  | cons c mem ih =>
      rw [upperLoop, str, ih]
      split_ifs
      · rfl
      · cases str mem <;> rfl

/-- The server sends back the string in its buffer, in upper case. -/
lemma serverMsgHandler_eq {t : ℕ} (h : str mem = some text) :
    serverMsgHandler ⟨t, mem⟩ = some ⟨t, terminated (text.map toUpper)⟩ := by
  have hzero := zero_notMem_map (zero_notMem_of_str h)
  simp [serverMsgHandler, upperLoop_eq, h, str_write_terminated hzero]

lemma length_firstLine_le (cs : List Byte) : (firstLine cs).length ≤ cs.length := by
  induction cs with
  | nil => exact Nat.le_refl 0
  | cons c cs ih =>
      rw [firstLine]
      split_ifs
      · simp
      · simpa using ih

lemma fgets_length {n : ℕ} {stdin rest : List Byte} (h : fgets n stdin = some (line, rest)) :
    line.length ≤ n - 1 := by
  simp only [fgets, Option.ite_none_left_eq_some, Option.some.injEq, Prod.mk.injEq] at h
  obtain ⟨-, rfl, -⟩ := h
  exact (length_firstLine_le _).trans (List.length_take_le _ _)

lemma length_firstLine_pos {cs : List Byte} (h : cs ≠ []) : 0 < (firstLine cs).length := by
  cases cs with
  | nil => exact absurd rfl h
  | cons c cs =>
      rw [firstLine]
      split_ifs <;> simp

/-- A line takes something from the input. -/
lemma fgets_split {n : ℕ} {stdin rest : List Byte} (hn : 1 < n)
    (h : fgets n stdin = some (line, rest)) : stdin = line ++ rest ∧ line ≠ [] := by
  simp only [fgets, Option.ite_none_left_eq_some, Option.some.injEq, Prod.mk.injEq] at h
  obtain ⟨hne, rfl, rfl⟩ := h
  have hinitial : ∀ cs : List Byte, firstLine cs <+: cs := by
    intro cs
    induction cs with
    | nil => exact List.prefix_rfl
    | cons c cs ih =>
        rw [firstLine]
        split_ifs
        · exact ⟨cs, rfl⟩
        · exact (List.prefix_cons_inj c).2 ih
  have hpos : firstLine (stdin.take (n - 1)) ≠ [] := by
    refine List.ne_nil_of_length_pos (length_firstLine_pos fun hnil => ?_)
    rcases List.take_eq_nil_iff.1 hnil with hzero | hnil
    · omega
    · exact hne hnil
  obtain ⟨t, ht⟩ := (hinitial (stdin.take (n - 1))).trans (List.take_prefix _ _)
  refine ⟨?_, hpos⟩
  generalize firstLine (stdin.take (n - 1)) = l at ht
  rw [← ht, List.drop_left]

lemma fgets_length_lt {n : ℕ} {stdin rest : List Byte} (hn : 1 < n)
    (h : fgets n stdin = some (line, rest)) : rest.length < stdin.length := by
  obtain ⟨rfl, hne⟩ := fgets_split hn h
  have hpos := List.length_pos_of_ne_nil hne
  rw [List.length_append]
  omega

/-! ### The message on its way -/

/-- The string that a message holds, which fits into the arrays. -/
structure Holds (q : Queued κ) (text : List Byte) : Prop where
  mdata_eq : q.msg.mdata = terminated text
  zero_notMem : 0 ∉ text
  lt : text.length < bufSize

lemma Holds.str_received {q : Queued κ} (h : Holds q text) (mem : List Byte) :
    str (received q mem) = some text := by
  have hlt := h.lt
  have htake : q.msg.mdata.take bufSize = terminated text := by
    rw [h.mdata_eq, terminated]
    exact List.take_of_length_le (by rwa [List.length_append])
  rw [received, htake]
  exact str_write_terminated h.zero_notMem mem

/-- What is on its way for a client that has sent `text`: the request or the answer. -/
def Answers (q : Queued κ) (k : κ) (text : List Byte) : Prop :=
  q.sender = .client k ∧ Holds q text ∨ q.sender = .server ∧ Holds q (text.map toUpper)

/-- What the messages `qs` of its type mean to the client `k`. -/
structure Exchange (typ : κ → ℕ) (k : κ) (c : Client) (qs : List (Queued κ)) : Prop where
  idle : c.pc ≠ .waiting → qs = []
  busy : c.pc = .waiting → 0 < typ k ∧ ∃ text q, str c.wdata = some text ∧ qs = [q] ∧
    Answers q k text

/-- The messages on their way, with the one that the server is going to send. -/
def System.flight (s : System κ) : List (Queued κ) :=
  (s.out.map fun m => ⟨.server, m⟩).toList ++ s.queue

/-- In every state there is one message on its way for every client that waits, and none for
the others. -/
structure Inv (typ : κ → ℕ) (s : System κ) : Prop where
  known : ∀ q ∈ s.flight, ∃ k, q.mtype = typ k
  exchange : ∀ k, Exchange typ k (s.client k) (ofType Queued.mtype (typ k) s.flight)

variable {typ : κ → ℕ} {s s' : System κ} {k j : κ} {c : Client} {q : Queued κ}
  {qs queue rest : List (Queued κ)} {o : List (Reply κ)}

lemma ofType_queued_self {p : Party κ} {m : MsqBuf} {t : ℕ} (h : m.mtype = t)
    (queue : List (Queued κ)) :
    ofType Queued.mtype t (⟨p, m⟩ :: queue) = ⟨p, m⟩ :: ofType Queued.mtype t queue :=
  ofType_cons_self (show Queued.mtype ⟨p, m⟩ = t from h) queue

lemma ofType_queued_ne {p : Party κ} {m : MsqBuf} {t : ℕ} (h : m.mtype ≠ t)
    (queue : List (Queued κ)) :
    ofType Queued.mtype t (⟨p, m⟩ :: queue) = ofType Queued.mtype t queue :=
  ofType_cons_ne (show Queued.mtype ⟨p, m⟩ ≠ t from h) queue

/-- A message of the type of a client is the only one on its way for it. -/
lemma Exchange.cons {c : Client} (h : Exchange typ k c (q :: qs)) :
    c.pc = .waiting ∧ qs = [] ∧ 0 < typ k ∧ ∃ text, str c.wdata = some text ∧ Answers q k text := by
  by_cases hpc : c.pc = .waiting
  · obtain ⟨hpos, text, q', htext, hqs, hq⟩ := h.busy hpc
    obtain ⟨rfl, rfl⟩ := List.cons.inj hqs
    exact ⟨hpc, rfl, hpos, text, htext, hq⟩
  · exact absurd (h.idle hpc) (List.cons_ne_nil q qs)

lemma Exchange.of_ne {c : Client} (hpc : c.pc ≠ .waiting) : Exchange typ k c [] :=
  ⟨fun _ => rfl, fun h => absurd h hpc⟩

/-- The server answers a request, and an answer again, with the answer. -/
lemma Answers.serve {text : List Byte} (h : Answers q k text) (mem : List Byte) :
    q.msg.mdata ≠ [] ∧ ∃ m, serverMsgHandler ⟨q.mtype, received q mem⟩ = some m ∧
      m.mtype = q.mtype ∧ Answers ⟨.server, m⟩ k text := by
  have hsome : ∀ text', Holds q text' → text'.map toUpper = text.map toUpper →
      q.msg.mdata ≠ [] ∧ ∃ m, serverMsgHandler ⟨q.mtype, received q mem⟩ = some m ∧
        m.mtype = q.mtype ∧ Answers ⟨.server, m⟩ k text := by
    intro text' hq hmap
    refine ⟨by simp [hq.mdata_eq, terminated], _, serverMsgHandler_eq (hq.str_received mem), rfl,
      Or.inr ⟨rfl, ?_, ?_, ?_⟩⟩
    · rw [hmap]
    · rw [← hmap]
      exact zero_notMem_map hq.zero_notMem
    · rw [← hmap, List.length_map]
      exact hq.lt
  rcases h with ⟨-, hq⟩ | ⟨-, hq⟩
  · exact hsome text hq rfl
  · refine hsome _ hq ?_
    rw [List.map_map]
    exact List.map_congr_left fun c _ => toUpper_toUpper c

/-! ### One step -/

lemma inv_start (typ : κ → ℕ) (stdin : κ → List Byte) : Inv typ (start stdin) :=
  ⟨fun q hq => by simp [System.flight, start] at hq,
    fun k => Exchange.of_ne (by simp [start])⟩

lemma System.flight_none (h : s.out = none) : s.flight = s.queue := by simp [System.flight, h]

lemma System.flight_some {m : MsqBuf} (h : s.out = some m) :
    s.flight = ⟨.server, m⟩ :: s.queue := by simp [System.flight, h]

/-- The server handles the message that it takes. -/
lemma Inv.serve (hinj : Function.Injective typ) (h : Inv typ s) (hout : s.out = none)
    (hr : MsgQueue.receive Queued.mtype 0 s.queue = some (q, rest)) :
    Inv typ (s.serverTake q rest) := by
  have hflight : s.flight = q :: rest := by rw [System.flight_none hout, receive_zero hr]
  obtain ⟨k, hk⟩ := h.known q (hflight ▸ List.mem_cons_self)
  have hex := h.exchange k
  rw [hflight, ofType_cons_self hk] at hex
  obtain ⟨hpc, hrest, hpos, text, htext, hq⟩ := hex.cons
  obtain ⟨hne, m, hm, hmt, hans⟩ := hq.serve s.sdata
  have htake : s.serverTake q rest =
      { s with queue := rest, sdata := received q s.sdata, out := some m } := by
    rw [System.serverTake, if_neg hne, hm]
  rw [htake]
  refine ⟨fun p hp => ?_, fun j => ?_⟩
  · rcases List.mem_cons.1 hp with rfl | hp
    · exact ⟨k, hmt.trans hk⟩
    · exact h.known p (hflight ▸ List.mem_cons_of_mem q hp)
  · show Exchange typ j (s.client j) (ofType Queued.mtype (typ j) (⟨.server, m⟩ :: rest))
    by_cases hj : typ j = typ k
    · obtain rfl := hinj hj
      rw [ofType_queued_self (hmt.trans hk), hrest]
      exact ⟨fun hne => absurd hpc hne, fun _ => ⟨hpos, text, _, htext, rfl, hans⟩⟩
    · have hexj := h.exchange j
      rw [hflight, ofType_cons_ne (fun he => hj (he.symm.trans hk))] at hexj
      rwa [ofType_queued_ne (fun he => hj (he.symm.trans (hmt.trans hk)))]

/-- The server sends its answer. -/
lemma Inv.reply {m : MsqBuf} (h : Inv typ s) (hout : s.out = some m) :
    Inv typ { s with queue := (msgsnd s.queue .server m).getD s.queue, out := none } := by
  have hflight := System.flight_some hout
  obtain ⟨k, hk⟩ := h.known ⟨.server, m⟩ (hflight ▸ List.mem_cons_self)
  have hpos : 0 < m.mtype := by
    have hex := h.exchange k
    rw [hflight, ofType_cons_self hk] at hex
    exact lt_of_lt_of_eq hex.cons.2.2.1 hk.symm
  rw [msgsnd, if_pos hpos, Option.getD_some]
  refine ⟨fun p hp => ?_, fun j => ?_⟩
  · rcases List.mem_append.1 (show p ∈ s.queue ++ [⟨.server, m⟩] from hp) with hp | hp
    · exact h.known p (hflight ▸ List.mem_cons_of_mem _ hp)
    · exact ⟨k, List.mem_singleton.1 hp ▸ hk⟩
  · have hex := h.exchange j
    rw [hflight] at hex
    show Exchange typ j (s.client j) (ofType Queued.mtype (typ j) (s.queue ++ [⟨.server, m⟩]))
    rw [ofType_append]
    by_cases hj : m.mtype = typ j
    · -- it is the only one of its type
      rw [ofType_queued_self hj] at hex
      have hnil := hex.cons.2.1
      rw [hnil] at hex
      rwa [hnil, List.nil_append, ofType_queued_self hj]
    · rw [ofType_queued_ne hj] at hex
      rwa [ofType_queued_ne hj, ofType_nil, List.append_nil]

section

variable [DecidableEq κ]

/-- A client that does not wait takes its next line, or leaves. -/
lemma Inv.setClient (h : Inv typ s) (hpc : (s.client k).pc ≠ .waiting) (hc : c.pc ≠ .waiting) :
    Inv typ (s.setClient k c) := by
  refine ⟨h.known, fun j => ?_⟩
  show Exchange typ j (Function.update s.client k c j) (ofType Queued.mtype (typ j) s.flight)
  by_cases hj : j = k
  · subst hj
    rw [Function.update_self, (h.exchange j).idle hpc]
    exact Exchange.of_ne hc
  · rw [Function.update_of_ne hj]
    exact h.exchange j

/-- A client sends a text. -/
lemma Inv.send (hinj : Function.Injective typ) (h : Inv typ s)
    (hpc : (s.client k).pc ≠ .waiting) {wdata stdin text : List Byte}
    (htext : str wdata = some text) (hlt : text.length < bufSize)
    (hsnd : msgsnd s.queue (.client k) ⟨typ k, terminated text⟩ = some queue) :
    Inv typ { s.setClient k ⟨.waiting, wdata, stdin⟩ with queue := queue } := by
  simp only [msgsnd, Option.ite_none_right_eq_some, Option.some.injEq] at hsnd
  obtain ⟨hpos, rfl⟩ := hsnd
  have hflight : System.flight { s.setClient k ⟨.waiting, wdata, stdin⟩ with
      queue := s.queue ++ [⟨.client k, ⟨typ k, terminated text⟩⟩] } =
      s.flight ++ [⟨.client k, ⟨typ k, terminated text⟩⟩] :=
    (List.append_assoc _ _ _).symm
  refine ⟨fun p hp => ?_, fun j => ?_⟩
  · rw [hflight] at hp
    rcases List.mem_append.1 hp with hp | hp
    · exact h.known p hp
    · exact ⟨k, List.mem_singleton.1 hp ▸ rfl⟩
  · rw [hflight, ofType_append]
    show Exchange typ j (Function.update s.client k ⟨.waiting, wdata, stdin⟩ j) _
    by_cases hj : j = k
    · subst hj
      rw [Function.update_self, (h.exchange j).idle hpc, List.nil_append,
        ofType_queued_self (show (MsqBuf.mk (typ j) (terminated text)).mtype = typ j from rfl)]
      refine ⟨fun hne => absurd rfl hne, fun _ => ⟨hpos, text, _, htext, rfl, Or.inl ⟨rfl, ?_⟩⟩⟩
      exact ⟨rfl, zero_notMem_of_str htext, hlt⟩
    · rw [Function.update_of_ne hj, ofType_queued_ne (fun he => hj (hinj he.symm)), ofType_nil,
        List.append_nil]
      exact h.exchange j

/-- A client has read a line: it sends it, or leaves. -/
lemma Inv.clientLine (hinj : Function.Injective typ) (h : Inv typ s)
    (hpc : (s.client k).pc ≠ .waiting) {line stdin : List Byte}
    (hf : fgets (bufSize - 1) (s.client k).stdin = some (line, stdin))
    (hs : s.clientLine typ k line stdin = some (s', o)) : Inv typ s' ∧ o = [] := by
  obtain ⟨text, htext, hlen⟩ := str_line line (s.client k).wdata
  have hlt : text.length < bufSize := by
    have hline := fgets_length hf
    unfold bufSize at hline ⊢
    omega
  simp only [System.clientLine, htext] at hs
  split_ifs at hs
  · obtain ⟨rfl, rfl⟩ := Prod.mk.inj (Option.some.inj hs)
    exact ⟨h.setClient hpc (by simp), rfl⟩
  · cases hsnd : msgsnd s.queue (.client k) ⟨typ k, terminated text⟩ with
    | none =>
        rw [hsnd] at hs
        obtain ⟨rfl, rfl⟩ := Prod.mk.inj (Option.some.inj hs)
        exact ⟨h.setClient hpc (by simp), rfl⟩
    | some queue =>
        rw [hsnd] at hs
        obtain ⟨rfl, rfl⟩ := Prod.mk.inj (Option.some.inj hs)
        exact ⟨h.send hinj hpc htext hlt hsnd, rfl⟩

/-- What a client takes is its own request or the answer to it, and nothing else is on its way
for it. -/
lemma Inv.taken (h : Inv typ s) (hpc : (s.client k).pc = .waiting)
    (hr : MsgQueue.receive Queued.mtype (typ k) s.queue = some (q, rest)) :
    q.mtype = typ k ∧ (∃ text, str (s.client k).wdata = some text ∧ Answers q k text) ∧
      ofType Queued.mtype (typ k) (s.clientTake k q rest).1.flight = [] := by
  obtain ⟨hpos, text, q', htext, hone, hans⟩ := (h.exchange k).busy hpc
  have hq := receive_ofType hpos hr
  rw [System.flight, ofType_append, hq] at hone
  rcases List.append_eq_singleton_iff.1 hone with ⟨hout, hone⟩ | ⟨-, hnil⟩
  · obtain ⟨rfl, hrest⟩ := List.cons.inj hone
    refine ⟨?_, ⟨text, htext, hans⟩, ?_⟩
    · exact (mem_ofType.1 (hq ▸ List.mem_cons_self)).2
    · show ofType Queued.mtype (typ k) ((s.out.map fun m => ⟨.server, m⟩).toList ++ rest) = []
      rw [ofType_append, hout, hrest, List.nil_append]
  · exact absurd hnil (List.cons_ne_nil q _)

lemma Inv.clientTake (hinj : Function.Injective typ) (h : Inv typ s)
    (hpc : (s.client k).pc = .waiting)
    (hr : MsgQueue.receive Queued.mtype (typ k) s.queue = some (q, rest)) :
    Inv typ (s.clientTake k q rest).1 := by
  obtain ⟨hmt, -, hnone⟩ := h.taken hpc hr
  refine ⟨fun p hp => ?_, fun j => ?_⟩
  · refine h.known p ?_
    rcases List.mem_append.1 hp with hp | hp
    · exact List.mem_append_left _ hp
    · exact List.mem_append_right _ (receive_subset hr hp)
  · show Exchange typ j (Function.update s.client k { s.client k with pc := .prompt } j) _
    by_cases hj : j = k
    · subst hj
      rw [Function.update_self, hnone]
      exact Exchange.of_ne (by simp)
    · have hrest : ofType Queued.mtype (typ j) (s.clientTake k q rest).1.flight =
          ofType Queued.mtype (typ j) s.flight := by
        show ofType Queued.mtype (typ j) ((s.out.map fun m => ⟨.server, m⟩).toList ++ rest) = _
        rw [System.flight, ofType_append, ofType_append,
          receive_ofType_ne hr (fun he => hj (hinj (he.symm.trans hmt)))]
      rw [Function.update_of_ne hj, hrest]
      exact h.exchange j

/-- What a client prints is right just when the server has sent it, or there was nothing to
change. -/
lemma Inv.right_iff (h : Inv typ s) (hpc : (s.client k).pc = .waiting)
    (hr : MsgQueue.receive Queued.mtype (typ k) s.queue = some (q, rest)) :
    (∀ x ∈ (s.clientTake k q rest).2, x.Right) ↔ Served typ s (.receive k) := by
  obtain ⟨-, ⟨text, htext, hans⟩, -⟩ := h.taken hpc hr
  have hmap : text.map upperCased = text.map toUpper :=
    List.map_congr_left fun c _ => (toUpper_eq_upperCased c).symm
  have hright : (∀ x ∈ (s.clientTake k q rest).2, x.Right) ↔
      str (received q zeros) = some (text.map toUpper) := by
    rw [System.clientTake, List.forall_mem_singleton, Reply.Right, ← hmap]
    constructor
    · rintro ⟨text', htext', he⟩
      obtain rfl := Option.some.inj (htext.symm.trans htext')
      exact he
    · exact fun he => ⟨text, htext, he⟩
  have hserved : Served typ s (.receive k) ↔ q.sender = .server ∨ ∀ c ∈ text, ¬ isLower c := by
    constructor
    · intro hall
      exact (hall _ hr).imp_right fun hlow => hlow text htext
    · intro hq r hr'
      obtain rfl := Option.some.inj (hr.symm.trans hr')
      refine hq.imp_right fun hlow text' htext' => ?_
      obtain rfl := Option.some.inj (htext.symm.trans htext')
      exact hlow
  rw [hright, hserved]
  rcases hans with ⟨hsender, hq⟩ | ⟨hsender, hq⟩
  · -- its own request
    rw [hq.str_received, Option.some.injEq, eq_comm, map_toUpper_eq_self_iff, hsender]
    simp
  · rw [hq.str_received]
    exact iff_of_true rfl (Or.inl hsender)

/-- **One step** keeps the invariant, and prints what is right just when it is served. -/
lemma Inv.step (hinj : Function.Injective typ) {a : Action κ} (h : Inv typ s)
    (hs : step typ s a = some (s', o)) : Inv typ s' ∧ ((∀ x ∈ o, x.Right) ↔ Served typ s a) := by
  cases a with
  | line k =>
      rw [EchoServer.step] at hs
      split_ifs at hs with hpc
      have hidle : (s.client k).pc ≠ .waiting := by
        rw [hpc]
        decide
      cases hf : fgets (bufSize - 1) (s.client k).stdin with
      | none =>
          rw [hf] at hs
          obtain ⟨rfl, rfl⟩ := Prod.mk.inj (Option.some.inj hs)
          exact ⟨h.setClient hidle (by simp), iff_of_true (by simp) trivial⟩
      | some r =>
          rw [hf] at hs
          obtain ⟨hI, rfl⟩ := h.clientLine hinj hidle hf hs
          exact ⟨hI, iff_of_true (by simp) trivial⟩
  | receive k =>
      simp only [EchoServer.step, Option.ite_none_right_eq_some, Option.map_eq_some_iff,
        Prod.exists] at hs
      obtain ⟨hpc, q, rest, hr, he⟩ := hs
      obtain ⟨rfl, rfl⟩ : (s.clientTake k q rest).1 = s' ∧ (s.clientTake k q rest).2 = o := by
        rw [he]
        exact ⟨rfl, rfl⟩
      exact ⟨h.clientTake hinj hpc hr, h.right_iff hpc hr⟩
  | serve =>
      simp only [EchoServer.step, Option.ite_none_right_eq_some, Option.map_eq_some_iff,
        Prod.exists, Prod.mk.injEq] at hs
      obtain ⟨⟨-, hout⟩, q, rest, hr, rfl, rfl⟩ := hs
      exact ⟨h.serve hinj hout hr, iff_of_true (by simp) trivial⟩
  | reply =>
      cases hout : s.out with
      | none => simp [EchoServer.step, hout] at hs
      | some m =>
          simp only [EchoServer.step, hout, Option.some.injEq, Prod.mk.injEq] at hs
          obtain ⟨rfl, rfl⟩ := hs
          exact ⟨h.reply hout, iff_of_true (by simp) trivial⟩

/-! ### Runs -/

/-- **What the clients get back**, whatever they send and in whatever order the parties take
their steps: it is the request in upper case just when every client is served. -/
theorem replies_upper_iff (hinj : Function.Injective typ) (stdin : κ → List Byte)
    {as : List (Action κ)} {os : List (Reply κ)}
    (hrun : run (step typ) (start stdin) as = some (s, os)) :
    (∀ x ∈ os, x.Right) ↔ AllMeet (step typ) (Served typ) (start stdin) as :=
  observed_iff_allMeet (fun _ _ _ _ h hs => h.step hinj hs) (inv_start typ stdin) hrun

end

/-- Two clients send `a` and `b`, and the server answers the first. -/
theorem replies_upper_iff_two :
    Function.Injective (fun k : Bool => clientType k.toNat) ∧ ∃ s,
      run (step fun k => clientType k.toNat) (start fun k : Bool => [cond k 98 97, 10])
        [.line false, .line true, .serve, .reply, .receive false] =
          some (s, [⟨false, some [97, 10], some [65, 10]⟩]) ∧
      ((∀ x ∈ [(⟨false, some [97, 10], some [65, 10]⟩ : Reply Bool)], x.Right) ↔
        AllMeet (step fun k => clientType k.toNat) (Served fun k => clientType k.toNat)
          (start fun k => [cond k 98 97, 10])
          [.line false, .line true, .serve, .reply, .receive false]) := by
  have hinj : Function.Injective fun k : Bool => clientType k.toNat := by
    intro j k
    revert j k
    decide
  exact ⟨hinj, _, rfl, replies_upper_iff hinj _ rfl⟩

/-- A client sends `a` and takes its own request. -/
theorem not_replies_upper :
    ¬ ∀ (as : List (Action Unit)) (s : System Unit) (os : List (Reply Unit)),
      run (step fun _ => clientType 0) (start fun _ => [97, 10]) as = some (s, os) →
        ∀ x ∈ os, x.Right := by
  intro h
  obtain ⟨text, hreq, htext⟩ := h [.line (), .receive ()] _
    [⟨(), some [97, 10], some [97, 10]⟩] rfl _ List.mem_cons_self
  obtain rfl : [97, 10] = text := Option.some.inj hreq
  exact absurd htext (by decide)

end EchoServer

end DemoClass
