import DemoClass.Select.Server

/-!
# The file server (`04File_Server/server.c`)

A round of the server polls, accepts, and runs the service loop, or does neither when
nothing is ready before the timeout.  The loop goes over the indices below `ol_con`, which
the handler counts down when it closes a connection: the entry at `k` is looked at when `k`
and the closed ones before it are together below `ol_con`.

`roundOk_iff` says that a round serves every client that is ready, and no hole, just when
this is so for the clients that are ready and for no hole.  The descriptors of the table
have to fit into an `fd_set`, and `server_close` has to stay within the table.
-/

namespace DemoClass

namespace Select

namespace FileServer

/-- `MAX_CLI_NUM` -/
def maxCliNum : ℕ := 2000

/-- What becomes of a request: `read` fails or is at the end, `get_filename` finds no name,
`file_send2` fails, or the file is sent. -/
inductive Request where
  | failed
  | eof
  | invalid
  | unsent
  | sent
deriving DecidableEq, Repr

/-- Whether the connection is closed. -/
def Request.closes : Request → Bool
  | .sent => false
  | _ => true

/-- `server_close` -/
def serverClose (s : Server) (conn_fd : ℤ) : Except Fault Server := do
  let s := s.call (.serverClose conn_fd)
  let s ← clearEntries true conn_fd s (s.ol_con + 1).toNat
  .ok (({ s with ol_con := s.ol_con - 1 } : Server).close conn_fd)

/-- `client_handler`, when `req` are the requests of the clients.  A negative descriptor
cannot be read. -/
def clientHandler (req : ℤ → Request) (s : Server) (conn_fd : ℤ) : Except Fault Server :=
  match if conn_fd < 0 then Request.failed else req conn_fd with
  | .failed | .invalid => do
    let s ← serverClose s conn_fd
    .ok (s.close conn_fd)
  | .eof | .unsent => serverClose s conn_fd
  | .sent => .ok s

/-- What the outside does in a round of `main`. -/
structure Round where
  ready : ℤ → Bool
  conn_fd : Option ℤ
  junk : Bool
  req : ℤ → Request

/-- The service loop from the index `i` on. -/
def service (r : Round) (s : Server) (i : ℕ) : Comp Fault Server :=
  Comp.loop (fun w => Comp.ofExcept (serviceBody (clientHandler r.req) r.junk w)) (s, i)

/-- The state before the service loop, with the calls of the round. -/
def admitted (s : Server) (r : Round) : Server :=
  ({ s with calls := [] } : Server).takeIn maxCliNum r.ready r.conn_fd

/-- A round of `main`. -/
def round (s : Server) (r : Round) : Comp Fault Server :=
  match ({ s with calls := [] } : Server).poll maxCliNum r.ready r.conn_fd with
  | .ok (.inl s) => pure s
  | .ok (.inr s) => service r s 0
  | .error e => Comp.fault e

/-! ### What a round is for -/

/-- The descriptors that `select` reports. -/
def reported (s : Server) (r : Round) (fd : ℤ) : Bool := r.ready fd && s.monitored fd

/-- `accept` returns a descriptor that is not open. -/
def Valid (s : Server) (r : Round) : Prop := ∀ fd, r.conn_fd = some fd → 0 ≤ fd ∧ fd ∉ s.conns

/-- `FD_ISSET` and `FD_CLR` are not called with a negative descriptor. -/
def Nonneg (calls : List Call) : Prop :=
  ∀ fd, Call.fdIsset fd ∈ calls ∨ Call.fdClr fd ∈ calls → 0 ≤ fd

/-- The round ends, with one call of the handler for each client that is reported, and
without a negative descriptor in `FD_ISSET` and `FD_CLR`. -/
def RoundOk (s : Server) (r : Round) : Prop :=
  ∃ s', (round s r).Ends (.ok s') ∧
    (∀ fd ∈ s.conns, reported s r fd = true → s'.calls.count (.clientHandler fd) = 1) ∧
    Nonneg s'.calls

/-- The states the server comes to.  A round with a negative descriptor in `FD_ISSET` goes on
when that says no. -/
inductive Reachable : Server → Prop
  | start : Reachable (start maxCliNum)
  | round {s s' : Server} {r : Round} : Reachable s → Valid s r → r.junk = false →
      (round s r).Ends (.ok s') → Reachable s'

lemma nonneg_append {l l' : List Call} : Nonneg (l ++ l') ↔ Nonneg l ∧ Nonneg l' := by
  constructor
  · intro h
    exact ⟨fun fd hfd => h fd (hfd.imp (List.mem_append_left l') (List.mem_append_left l')),
      fun fd hfd => h fd (hfd.imp (List.mem_append_right l) (List.mem_append_right l))⟩
  · rintro ⟨h, h'⟩ fd hfd
    rw [List.mem_append, List.mem_append] at hfd
    rcases hfd with (hfd | hfd) | (hfd | hfd)
    · exact h fd (Or.inl hfd)
    · exact h' fd (Or.inl hfd)
    · exact h fd (Or.inr hfd)
    · exact h' fd (Or.inr hfd)

variable {s s' t : Server} {r : Round} {fd x : ℤ} {i : ℕ} {pre xs : List ℤ}

/-! ### The handler -/

/-- Whether the visit of an entry closes a connection. -/
def closing (s : Server) (r : Round) (fd : ℤ) : Bool := s.rd_set fd && (r.req fd).closes

lemma serverClose_def (s : Server) (fd : ℤ) : serverClose s fd =
    (clearEntries true fd (s.call (.serverClose fd)) (s.ol_con + 1).toNat).map
      fun t => ({ t with ol_con := t.ol_con - 1 } : Server).close fd := by
  show (clearEntries true fd (s.call (.serverClose fd)) (s.ol_con + 1).toNat >>= _) = _
  cases clearEntries true fd (s.call (.serverClose fd)) (s.ol_con + 1).toNat <;> rfl

/-- The state after the descriptor between `pre` and `xs` is closed. -/
def closed (s : Server) (fd : ℤ) (pre xs : List ℤ) : Server :=
  ({ (s.call (.serverClose fd)).cleared true fd pre xs with ol_con := s.ol_con - 1 } : Server).close
    fd

lemma serverClose_of_split (hfds : s.cli_fds = pre ++ fd :: xs) (hpre : fd ∉ pre) (hxs : fd ∉ xs)
    (hi : pre.length < s.ol_con) (hlt : s.ol_con < s.cli_fds.length) :
    serverClose s fd = .ok (closed s fd pre xs) := by
  have hlen : s.cli_fds.length = pre.length + 1 + xs.length := by
    rw [hfds, List.length_append, List.length_cons]
    omega
  have hclear : clearEntries true fd (s.call (.serverClose fd)) (s.ol_con + 1).toNat =
      .ok ((s.call (.serverClose fd)).cleared true fd pre xs) := by
    have hsplit : (s.call (.serverClose fd)).cli_fds = pre ++ fd :: xs := hfds
    have hn : (s.ol_con + 1).toNat ≤ (s.call (.serverClose fd)).cli_fds.length := by
      show (s.ol_con + 1).toNat ≤ s.cli_fds.length
      omega
    rw [Select.clearEntries_eq hsplit hpre hxs hn, if_pos (by omega)]
  rw [serverClose_def, hclear]
  rfl

lemma serverClose_eq (h : Consistent maxCliNum s) (hfds : s.cli_fds = pre ++ fd :: xs)
    (hpos : 0 ≤ fd) (hi : pre.length < s.ol_con) (hne : s.ol_con ≠ maxCliNum) :
    serverClose s fd = .ok (closed s fd pre xs) := by
  have hused : isConn fd = true := by simpa [isConn] using hpos
  have hnot := Slots.notMem_of_nodup (hfds ▸ h.nodup) hused
  have hle := h.ol_con_le
  have hlen := h.length
  exact serverClose_of_split hfds hnot.1 hnot.2 hi (by omega)

lemma serverClose_full (hlen : s.cli_fds.length = maxCliNum) (hfull : s.ol_con = maxCliNum) :
    serverClose s fd = .error .outOfBounds := by
  have hclear : clearEntries true fd (s.call (.serverClose fd)) (s.ol_con + 1).toNat =
      .error .outOfBounds :=
    clearEntries_behind (show s.cli_fds.length < (s.ol_con + 1).toNat by omega)
  rw [serverClose_def, hclear]
  rfl

lemma clientHandler_of_closes {req : ℤ → Request} (hpos : 0 ≤ fd)
    (hc : (req fd).closes = true) (hs : serverClose s fd = .ok t) :
    clientHandler req s fd = .ok t ∨ clientHandler req s fd = .ok (t.close fd) := by
  have hneg : ¬ fd < 0 := by omega
  rw [clientHandler, if_neg hneg]
  cases hreq : req fd with
  | failed =>
      right
      simp only [hs]
      rfl
  | invalid =>
      right
      simp only [hs]
      rfl
  | eof => exact Or.inl hs
  | unsent => exact Or.inl hs
  | sent =>
      rw [hreq] at hc
      cases hc

lemma clientHandler_of_not_closes {req : ℤ → Request} (hpos : 0 ≤ fd)
    (hc : (req fd).closes = false) : clientHandler req s fd = .ok s := by
  have hneg : ¬ fd < 0 := by omega
  rw [clientHandler, if_neg hneg]
  cases hreq : req fd <;> simp_all [Request.closes]

/-! ### A visit -/

/-- The state after the visit of the entry `x` at `i`, which is a descriptor; the entries `xs`
are still to come. -/
structure Visited (r : Round) (s : Server) (i : ℕ) (x : ℤ) (xs : List ℤ) (t : Server) : Prop where
  consistent : Consistent maxCliNum t
  cli_fds : ∃ pre, t.cli_fds = pre ++ xs ∧ pre.length = i + 1
  ol_con : t.ol_con = if closing s r x then s.ol_con - 1 else s.ol_con
  rd_set : ∀ y ∈ xs, t.rd_set y = s.rd_set y
  calls : ∃ new, t.calls = s.calls ++ new ∧ Nonneg new ∧
    ∀ y, new.count (.clientHandler y) = if y = x ∧ s.rd_set x = true then 1 else 0

/-- The state after a connection is closed is one after its visit. -/
lemma visited_closed (h : Consistent maxCliNum s) (hfds : s.cli_fds = pre ++ x :: xs)
    (hpos : 0 ≤ x) (hset : s.rd_set x = true) (hc : (r.req x).closes = true) :
    Visited r s pre.length x xs
      (closed ((s.call (.fdIsset x)).call (.clientHandler x)) x pre xs) := by
  have hused : isConn x = true := by simpa [isConn] using hpos
  have hnot := Slots.notMem_of_nodup (hfds ▸ h.nodup) hused
  refine ⟨?_, ⟨pre ++ [-1], ?_, ?_⟩, ?_, fun y hy => ?_, ?_⟩
  · refine h.leave hfds hpos ?_ ?_ fun y => ?_
    · rfl
    · rfl
    · simp [closed, Server.close, Server.cleared, Server.fdClr, Server.call]
  · simp [closed, Server.close, Server.cleared, Server.fdClr]
  · simp
  · simp [closed, closing, hset, hc, Server.close, Server.call]
  · have hne : y ≠ x := fun he => hnot.2 (he ▸ hy)
    simp [closed, Server.close, Server.cleared, Server.fdClr, Server.call, hne]
  · refine ⟨[.fdIsset x, .clientHandler x, .serverClose x, .fdClr x, .close x], ?_, ?_, fun y => ?_⟩
    · simp [closed, Server.close, Server.cleared, Server.fdClr, Server.call]
    · intro y hy
      have hyx : y = x := by simpa using hy
      rw [hyx]
      exact hpos
    · by_cases hy : y = x
      · simp [hy, hset]
      · have hy' : x ≠ y := fun he => hy he.symm
        simp [hy, hy']

/-- Closing a descriptor that is closed changes nothing. -/
lemma Visited.close (h : Visited r s i x xs t) (hx : x ∉ t.conns) :
    Visited r s i x xs (t.close x) := by
  refine ⟨h.consistent.congr rfl rfl fun y => ?_, h.cli_fds, h.ol_con, h.rd_set, ?_⟩
  · have hne : y ∈ t.conns → y ≠ x := fun hy he => hx (he ▸ hy)
    simpa [Server.close] using hne
  · obtain ⟨new, hcalls, hnonneg, hcount⟩ := h.calls
    refine ⟨new ++ [.close x], ?_, fun y hy => hnonneg y (by simpa using hy), fun y => ?_⟩
    · simp [Server.close, hcalls]
    · rw [List.count_append, hcount]
      simp

/-- The visit of a descriptor. -/
lemma visit_eq (h : Consistent maxCliNum s) (hfds : s.cli_fds = pre ++ x :: xs)
    (hi : pre.length < s.ol_con) (hpos : 0 ≤ x) (hroom : x < fdSetSize)
    (hfull : closing s r x = true → s.ol_con ≠ maxCliNum) :
    ∃ t, serviceBody (clientHandler r.req) r.junk (s, pre.length) =
      .ok (.inl (t, pre.length + 1)) ∧ Visited r s pre.length x xs t := by
  have hneg : ¬ x < 0 := by omega
  have hfd : s.cli_fds[pre.length]? = some x := by simp [hfds]
  have hcons : ∀ t : Server, t.ol_con = s.ol_con → t.cli_fds = s.cli_fds → t.conns = s.conns →
      Consistent maxCliNum t := fun t h₁ h₂ h₃ => h.congr h₁ h₂ fun y => by rw [h₃]
  by_cases hset : s.rd_set x = true
  · have hset' : s.fdIsset r.junk x = true := by simp [Server.fdIsset, hneg, hset]
    rw [serviceBody_handle hi hfd hroom hset']
    by_cases hc : (r.req x).closes = true
    · have hne := hfull (by simp [closing, hset, hc])
      have hclosed := serverClose_eq
        (hcons ((s.call (.fdIsset x)).call (.clientHandler x)) rfl rfl rfl) hfds hpos hi hne
      have hv := visited_closed h hfds hpos hset hc
      rcases clientHandler_of_closes hpos hc hclosed with hh | hh
      · exact ⟨_, by rw [hh]; rfl, hv⟩
      · refine ⟨_, by rw [hh]; rfl, hv.close ?_⟩
        simp [closed, Server.close]
    · rw [Bool.not_eq_true] at hc
      refine ⟨_, by rw [clientHandler_of_not_closes hpos hc]; rfl, ?_⟩
      refine ⟨hcons _ rfl rfl rfl, ⟨pre ++ [x], by simp [Server.call, hfds], by simp⟩, ?_,
        fun y _ => rfl, [.fdIsset x, .clientHandler x], by simp [Server.call], ?_, fun y => ?_⟩
      · simp [closing, hc, Server.call]
      · intro y hy
        obtain rfl : y = x := by simpa using hy
        exact hpos
      · by_cases hy : y = x
        · simp [hy, hset]
        · have hy' : x ≠ y := fun he => hy he.symm
          simp [hy, hy']
  · rw [Bool.not_eq_true] at hset
    have hset' : s.fdIsset r.junk x = false := by simp [Server.fdIsset, hneg, hset]
    refine ⟨s.call (.fdIsset x), serviceBody_skip hi hfd hroom hset', hcons _ rfl rfl rfl,
      ⟨pre ++ [x], by simp [Server.call, hfds], by simp⟩, ?_, fun y _ => rfl, [.fdIsset x],
      by simp [Server.call], ?_, fun y => ?_⟩
    · simp [closing, hset, Server.call]
    · intro y hy
      obtain rfl : y = x := by simpa using hy
      exact hpos
    · simp [hset]

/-- The visit of a connection that closes while the table is full goes wrong. -/
lemma visit_full (h : Consistent maxCliNum s) (hfd : s.cli_fds[i]? = some x) (hi : i < s.ol_con)
    (hpos : 0 ≤ x) (hroom : x < fdSetSize) (hc : closing s r x = true)
    (hfull : s.ol_con = maxCliNum) :
    serviceBody (clientHandler r.req) r.junk (s, i) = .error .outOfBounds := by
  have hneg : ¬ x < 0 := by omega
  have hsplit : s.rd_set x = true ∧ (r.req x).closes = true := by simpa [closing] using hc
  have hset' : s.fdIsset r.junk x = true := by simp [Server.fdIsset, hneg, hsplit.1]
  have hclose : serverClose ((s.call (.fdIsset x)).call (.clientHandler x)) x =
      .error .outOfBounds :=
    serverClose_full h.length hfull
  rw [serviceBody_handle hi hfd hroom hset', clientHandler, if_neg hneg]
  cases hreq : r.req x with
  | sent => simp [hreq, Request.closes] at hsplit
  | failed => simp only [hclose]; rfl
  | invalid => simp only [hclose]; rfl
  | eof => simp only [hclose]; rfl
  | unsent => simp only [hclose]; rfl

/-! ### The calls stay -/

lemma prefix_of_clearEntry {clr : Bool} {n : ℕ} (h : clearEntry clr fd s n = .ok t) :
    s.calls <+: t.calls := by
  unfold clearEntry at h
  split at h
  · cases h
  · split_ifs at h <;> cases h
    · exact List.prefix_append _ _
    · exact List.prefix_rfl
    · exact List.prefix_rfl

lemma prefix_of_clearEntries {clr : Bool} {n : ℕ} (h : clearEntries clr fd s n = .ok t) :
    s.calls <+: t.calls := by
  induction n generalizing t with
  | zero =>
      cases h
      exact List.prefix_rfl
  | succ n ih =>
      rcases hc : clearEntries clr fd s n with e | u
      · rw [clearEntries, hc] at h
        cases h
      · rw [clearEntries, hc] at h
        exact (ih hc).trans (prefix_of_clearEntry h)

lemma prefix_of_serverClose (h : serverClose s fd = .ok t) : s.calls <+: t.calls := by
  rw [serverClose_def] at h
  rcases hc : clearEntries true fd (s.call (.serverClose fd)) (s.ol_con + 1).toNat with e | u
  · rw [hc] at h
    cases h
  · rw [hc] at h
    cases h
    have hpre := prefix_of_clearEntries hc
    exact ((List.prefix_append _ _).trans hpre).trans (List.prefix_append _ _)

lemma prefix_of_clientHandler {req : ℤ → Request} (h : clientHandler req s fd = .ok t) :
    s.calls <+: t.calls := by
  have hclose : serverClose s fd = .ok t → s.calls <+: t.calls := prefix_of_serverClose
  have htwice : (serverClose s fd >>= fun u => .ok (u.close fd)) = .ok t →
      s.calls <+: t.calls := by
    intro hok
    rcases hs : serverClose s fd with e | u
    · rw [hs] at hok
      cases hok
    · rw [hs] at hok
      cases hok
      exact (prefix_of_serverClose hs).trans (List.prefix_append _ _)
  rw [clientHandler] at h
  cases hq : (if fd < 0 then Request.failed else req fd) <;> rw [hq] at h
  · exact htwice h
  · exact hclose h
  · exact htwice h
  · exact hclose h
  · cases h
    exact List.prefix_rfl

/-- A visit calls `FD_ISSET` for the entry, whatever else it does. -/
lemma prefix_of_visit {req : ℤ → Request} {junk : Bool} {w : Server × ℕ}
    (hfd : s.cli_fds[i]? = some x) (hi : i < s.ol_con) (hroom : x < fdSetSize)
    (h : serviceBody (clientHandler req) junk (s, i) = .ok (.inl w)) :
    s.calls ++ [.fdIsset x] <+: w.1.calls := by
  by_cases hset : s.fdIsset junk x = true
  · rw [serviceBody_handle hi hfd hroom hset] at h
    rcases hh : clientHandler req ((s.call (.fdIsset x)).call (.clientHandler x)) x with e | t
    · rw [hh] at h
      cases h
    · rw [hh] at h
      cases h
      exact (List.prefix_append _ _).trans (prefix_of_clientHandler hh)
  · rw [Bool.not_eq_true] at hset
    rw [serviceBody_skip hi hfd hroom hset] at h
    cases h
    exact List.prefix_rfl

lemma prefix_of_service (h : (service r s i).Ends (.ok t)) : s.calls <+: t.calls := by
  refine serviceLoop_invariant (I := fun u => s.calls <+: u.calls) ?_ List.prefix_rfl h
  intro u j x w hu hj hx hroom hw
  exact hu.trans ((List.prefix_append _ _).trans (prefix_of_visit hx hj hroom hw))

/-! ### The service loop -/

/-- Whether a connection that is reported in `rd` is closed. -/
def closes (rd : ℤ → Bool) (r : Round) (fd : ℤ) : Bool := rd fd && (r.req fd).closes

/-- What must hold for the service loop from the index `i` on to serve the entries `xs`, with
`ol_con` at `ol`. -/
def Served (rd : ℤ → Bool) (r : Round) : ℕ → ℤ → List ℤ → Prop
  | _, _, [] => True
  | i, ol, x :: xs =>
    if i < ol then
      (0 ≤ x ∧ x < fdSetSize) ∧ (closes rd r x = true → ol ≠ maxCliNum) ∧
        Served rd r (i + 1) (if closes rd r x then ol - 1 else ol) xs
    else ∀ y ∈ x :: xs, rd y = false

variable {rd : ℤ → Bool} {new : List Call}

lemma service_done (hi : ¬ i < s.ol_con) : (service r s i).Ends (.ok s) := by
  refine Comp.Ends.loop_inr ?_
  rw [serviceBody_done hi]
  simp

lemma closing_eq_closes (h : s.rd_set x = rd x) : closing s r x = closes rd r x := by
  rw [closing, closes, h]

/-- A visit leaves the entries to come as they are in `rd`, and the count as `Served` has
it. -/
lemma Visited.next (h : Visited r s i x xs t) (hrd : ∀ y ∈ x :: xs, s.rd_set y = rd y) :
    t.ol_con = (if closes rd r x then s.ol_con - 1 else s.ol_con) ∧
      ∀ y ∈ xs, t.rd_set y = rd y := by
  constructor
  · rw [h.ol_con, closing_eq_closes (hrd x List.mem_cons_self)]
  · intro y hy
    rw [h.rd_set y hy, hrd y (List.mem_cons_of_mem x hy)]

/-- At the end of the table the loop is over. -/
lemma Consistent.not_lt (h : Consistent maxCliNum s) (hfds : s.cli_fds = pre) :
    ¬ pre.length < s.ol_con := by
  have hle := h.ol_con_le
  have hlen := h.length
  rw [hfds] at hlen
  omega

/-- The loop serves what `Served` asks for. -/
lemma service_of_served (h : Consistent maxCliNum s) (hfds : s.cli_fds = pre ++ xs)
    (hrd : ∀ y ∈ xs, s.rd_set y = rd y) (hserved : Served rd r pre.length s.ol_con xs) :
    ∃ t new, (service r s pre.length).Ends (.ok t) ∧ t.calls = s.calls ++ new ∧ Nonneg new ∧
      ∀ y, new.count (.clientHandler y) = if y ∈ xs ∧ rd y = true then 1 else 0 := by
  induction xs generalizing s pre with
  | nil =>
      refine ⟨s, [], service_done ?_, by simp, fun y hy => by simp at hy, fun y => by simp⟩
      exact Consistent.not_lt h (by simpa using hfds)
  | cons x xs ih =>
      rw [Served] at hserved
      by_cases hi : (pre.length : ℤ) < s.ol_con
      · rw [if_pos hi] at hserved
        obtain ⟨⟨hpos, hroom⟩, hfull, hrest⟩ := hserved
        have hx : s.rd_set x = rd x := hrd x List.mem_cons_self
        obtain ⟨t, hbody, hv⟩ := visit_eq h hfds hi hpos hroom (by rwa [closing_eq_closes hx])
        obtain ⟨pre', hfds', hlen'⟩ := hv.cli_fds
        obtain ⟨new, hcalls, hnonneg, hcount⟩ := hv.calls
        obtain ⟨hol, hrd'⟩ := hv.next hrd
        obtain ⟨u, new', hends, hcalls', hnonneg', hcount'⟩ := ih hv.consistent hfds' hrd'
          (by rwa [hlen', hol])
        have hnot : x ∉ xs :=
          (Slots.notMem_of_nodup (hfds ▸ h.nodup) (by simpa [isConn] using hpos)).2
        refine ⟨u, new ++ new', ?_, ?_, ?_, fun y => ?_⟩
        · refine Comp.Ends.loop_inl (Comp.ends_ofExcept.2 hbody.symm) ?_
          rw [← hlen']
          exact hends
        · rw [hcalls', hcalls, List.append_assoc]
        · exact nonneg_append.2 ⟨hnonneg, hnonneg'⟩
        · rw [List.count_append, hcount, hcount', hx]
          by_cases hy : y = x
          · subst hy
            simp [hnot]
          · simp [hy]
      · rw [if_neg hi] at hserved
        refine ⟨s, [], service_done hi, by simp, fun y hy => by simp at hy, fun y => ?_⟩
        have hno : ¬ (y ∈ x :: xs ∧ rd y = true) := fun hy => by simp [hserved y hy.1] at hy
        rw [if_neg hno]
        rfl

/-- A loop that serves the clients does what `Served` asks for. -/
lemma served_of_service (h : Consistent maxCliNum s) (hfds : s.cli_fds = pre ++ xs)
    (hrd : ∀ y ∈ xs, s.rd_set y = rd y) (hends : (service r s pre.length).Ends (.ok t))
    (hcalls : t.calls = s.calls ++ new) (hnonneg : Nonneg new)
    (hcount : ∀ y ∈ xs, rd y = true → new.count (.clientHandler y) = 1) :
    Served rd r pre.length s.ol_con xs := by
  induction xs generalizing s pre new with
  | nil => trivial
  | cons x xs ih =>
      have hfd : s.cli_fds[pre.length]? = some x := by simp [hfds]
      rw [Served]
      by_cases hi : (pre.length : ℤ) < s.ol_con
      · rw [if_pos hi]
        obtain ⟨w, hbody, hrest⟩ := serviceLoop_next hi hends
        have hroom : x < fdSetSize := by
          obtain ⟨-, y, hy, hlt⟩ := serviceBody_eq_inl hbody
          rwa [Option.some.inj (hfd.symm.trans hy)]
        -- the visit of a hole would be a call with a negative descriptor
        have hpos : 0 ≤ x := by
          have hpre := (prefix_of_visit hfd hi hroom hbody).trans (prefix_of_service hrest)
          rw [hcalls, List.prefix_append_right_inj] at hpre
          exact hnonneg x (Or.inl (hpre.subset (by simp)))
        have hx : s.rd_set x = rd x := hrd x List.mem_cons_self
        have hfull : closes rd r x = true → s.ol_con ≠ maxCliNum := by
          intro hc hmax
          rw [visit_full h hfd hi hpos hroom ((closing_eq_closes hx).trans hc) hmax] at hbody
          cases hbody
        refine ⟨⟨hpos, hroom⟩, hfull, ?_⟩
        obtain ⟨u, hbody', hv⟩ := visit_eq h hfds hi hpos hroom (by rwa [closing_eq_closes hx])
        obtain rfl : (u, pre.length + 1) = w := by simpa using hbody'.symm.trans hbody
        obtain ⟨pre', hfds', hlen'⟩ := hv.cli_fds
        obtain ⟨hol, hrd'⟩ := hv.next hrd
        obtain ⟨new₁, hcalls₁, -, hcount₁⟩ := hv.calls
        obtain ⟨new₂, hcalls₂⟩ := prefix_of_service hrest
        have hnew : new = new₁ ++ new₂ := by
          rw [← List.append_cancel_left_eq s.calls, ← hcalls, ← hcalls₂, hcalls₁, List.append_assoc]
        have hnot : x ∉ xs :=
          (Slots.notMem_of_nodup (hfds ▸ h.nodup) (by simpa [isConn] using hpos)).2
        rw [← hol, ← hlen']
        refine ih hv.consistent hfds' hrd' (hlen' ▸ hrest) hcalls₂.symm ?_ ?_
        · exact (nonneg_append.1 (hnew ▸ hnonneg)).2
        · intro y hy hset
          have hne : y ≠ x := fun he => hnot (he ▸ hy)
          have hone := hcount y (List.mem_cons_of_mem x hy) hset
          rw [hnew, List.count_append, hcount₁, if_neg (fun hyx => hne hyx.1)] at hone
          omega
      · rw [if_neg hi]
        intro y hy
        by_contra hset
        obtain rfl : s = t := by simpa using (service_done hi).unique hends
        have hnil : new = [] := by simpa using hcalls
        have hone := hcount y hy (by simpa using hset)
        simp [hnil] at hone

/-! ### Rounds -/

/-- A visit of a hole that is not taken for ready changes nothing, and so the table stays that
of the connections. -/
lemma consistent_of_service (h : Consistent maxCliNum s) (hj : r.junk = false)
    (hends : (service r s i).Ends (.ok t)) : Consistent maxCliNum t := by
  refine serviceLoop_invariant (I := Consistent maxCliNum) ?_ h hends
  intro u j x w hu hlt hget hroom hw
  by_cases hpos : 0 ≤ x
  · obtain ⟨pre, xs, hfds, rfl⟩ := Slots.exists_split hget
    have hfull : closing u r x = true → u.ol_con ≠ maxCliNum := by
      intro hc hmax
      rw [visit_full hu hget hlt hpos hroom hc hmax] at hw
      cases hw
    obtain ⟨v, hv, hvis⟩ := visit_eq hu hfds hlt hpos hroom hfull
    obtain rfl : (v, pre.length + 1) = w := by simpa using hv.symm.trans hw
    exact hvis.consistent
  · have hset : u.fdIsset r.junk x = false := by
      rw [Server.fdIsset, if_pos (by omega), hj]
    obtain rfl : (u.call (.fdIsset x), j + 1) = w := by
      simpa using (serviceBody_skip hlt hget hroom hset).symm.trans hw
    exact Consistent.congr hu rfl rfl fun _ => Iff.rfl

lemma Consistent.admitted (h : Consistent maxCliNum s) (hv : Valid s r) :
    Consistent maxCliNum (admitted s r) := by
  have h' : Consistent maxCliNum { s with calls := [] } := h.congr rfl rfl fun _ => Iff.rfl
  exact h'.takeIn r.ready hv

/-- Nothing is reported and nobody connects. -/
def Idle (s : Server) (r : Round) : Prop := s.quiet r.ready r.conn_fd = true

lemma round_idle (hroom : ∀ fd ∈ s.cli_fds, fd < fdSetSize) (hidle : Idle s r) :
    round s r = pure { s with rd_set := fun _ => false, calls := [] } := by
  have hpoll : ({ s with calls := [] } : Server).poll maxCliNum r.ready r.conn_fd =
      .ok (.inl { s with rd_set := fun _ => false, calls := [] }) := poll_quiet hroom hidle
  rw [round, hpoll]

lemma round_busy (hroom : ∀ fd ∈ s.cli_fds, fd < fdSetSize) (hidle : ¬ Idle s r) :
    round s r = service r (admitted s r) 0 := by
  have hpoll : ({ s with calls := [] } : Server).poll maxCliNum r.ready r.conn_fd =
      .ok (.inr (admitted s r)) := poll_takeIn hroom (eq_false_of_ne_true hidle)
  rw [round, hpoll]

lemma round_ends (hroom : ∀ fd ∈ s.cli_fds, fd < fdSetSize) (hidle : ¬ Idle s r)
    (h : (service r (admitted s r) 0).Ends (.ok t)) : (round s r).Ends (.ok t) := by
  rwa [round_busy hroom hidle]

/-- A round that ends had room for all descriptors in its set. -/
lemma room_of_round (h : (round s r).Ends (.ok t)) : ∀ fd ∈ s.cli_fds, fd < fdSetSize := by
  by_contra hroom
  have hpoll : ({ s with calls := [] } : Server).poll maxCliNum r.ready r.conn_fd =
      .error .outOfBounds := poll_outside hroom
  rw [round, hpoll, Comp.ends_fault] at h
  cases h

lemma Reachable.consistent (h : Reachable s) : Consistent maxCliNum s := by
  induction h with
  | start => exact consistent_start maxCliNum
  | @round s s' r _ hv hj hends ih =>
      have hroom := room_of_round hends
      by_cases hidle : Idle s r
      · rw [round_idle hroom hidle, Comp.ends_pure] at hends
        obtain rfl := Except.ok.inj hends
        exact ih.congr rfl rfl fun _ => Iff.rfl
      · rw [round_busy hroom hidle] at hends
        exact consistent_of_service (Consistent.admitted ih hv) hj hends

/-- The connections below the index `k` that are closed in the round. -/
def closedBefore (s : Server) (r : Round) (k : ℕ) : ℕ :=
  ((admitted s r).cli_fds.take k).countP (closes (reported s r) r)

/-- The condition of a round.  The set has room for the descriptors; and with the table with which
the service loop begins, if it comes to it, the entry at `k`, which is looked at if it is reached in
spite of the closed connections before it, is a descriptor that the set has room for, the client
at `k` is reached in spite of them, and with a full table none is closed. -/
structure InTime (s : Server) (r : Round) : Prop where
  room : ∀ fd ∈ s.cli_fds, fd < fdSetSize
  visited : ¬ Idle s r → ∀ k fd, (admitted s r).cli_fds[k]? = some fd →
    k + closedBefore s r k < (admitted s r).ol_con → 0 ≤ fd ∧ fd < fdSetSize
  client : ∀ k fd, (admitted s r).cli_fds[k]? = some fd → reported s r fd = true →
    k + closedBefore s r k < (admitted s r).ol_con
  full : ∀ fd ∈ (admitted s r).cli_fds, closes (reported s r) r fd = true →
    (admitted s r).ol_con ≠ maxCliNum

/-- What `Served` asks for of the entry `x` at `k`. -/
def ServedAt (rd : ℤ → Bool) (r : Round) (i : ℕ) (ol : ℤ) (xs : List ℤ) (k : ℕ) (x : ℤ) : Prop :=
  (i + k + ((xs.take k).countP (closes rd r) : ℤ) < ol → 0 ≤ x ∧ x < fdSetSize) ∧
    (rd x = true → i + k + ((xs.take k).countP (closes rd r) : ℤ) < ol) ∧
    (closes rd r x = true → ol - (xs.take k).countP (closes rd r) ≠ maxCliNum)

lemma servedAt_succ {ol y : ℤ} {k : ℕ} : ServedAt rd r i ol (x :: xs) (k + 1) y ↔
    ServedAt rd r (i + 1) (if closes rd r x then ol - 1 else ol) xs k y := by
  unfold ServedAt
  rw [List.take_succ_cons, List.countP_cons]
  by_cases hc : closes rd r x = true
  · simp only [hc, if_true]
    push_cast
    have h₁ : (i : ℤ) + (k + 1) + (((xs.take k).countP (closes rd r) : ℤ) + 1) < ol ↔
        (i : ℤ) + 1 + k + ((xs.take k).countP (closes rd r) : ℤ) < ol - 1 := by omega
    have h₂ : ol - (((xs.take k).countP (closes rd r) : ℤ) + 1) =
        ol - 1 - ((xs.take k).countP (closes rd r) : ℤ) := by omega
    rw [h₁, h₂]
  · have h₁ : (i : ℤ) + (k + 1) + ((xs.take k).countP (closes rd r) : ℤ) =
        (i : ℤ) + 1 + k + ((xs.take k).countP (closes rd r) : ℤ) := by omega
    simp only [hc, Bool.false_eq_true, if_false, Nat.add_zero]
    push_cast
    rw [h₁]

/-- `Served`, entry by entry. -/
lemma served_iff {ol : ℤ} :
    Served rd r i ol xs ↔ ∀ k x, xs[k]? = some x → ServedAt rd r i ol xs k x := by
  induction xs generalizing i ol with
  | nil => simp [Served]
  | cons x xs ih =>
      rw [Served]
      by_cases hi : (i : ℤ) < ol
      · rw [if_pos hi, ih]
        constructor
        · rintro ⟨hpos, hfull, hrest⟩ k y hk
          cases k with
          | zero =>
              obtain rfl : x = y := by simpa using hk
              exact ⟨fun _ => hpos, fun _ => by simpa using hi, fun hc => by simpa using hfull hc⟩
          | succ k => exact servedAt_succ.2 (hrest k y (by simpa using hk))
        · intro h
          obtain ⟨hpos, -, hfull⟩ := h 0 x rfl
          refine ⟨hpos (by simpa using hi), fun hc => by simpa using hfull hc, fun k y hk => ?_⟩
          exact servedAt_succ.1 (h (k + 1) y (by simpa using hk))
      · rw [if_neg hi]
        constructor
        · intro h k y hk
          have hrd := h y (List.mem_of_getElem? hk)
          refine ⟨fun hlt => absurd hlt (by omega), fun hset => ?_, fun hc => ?_⟩
          · rw [hrd] at hset
            cases hset
          · rw [closes, hrd] at hc
            cases hc
        · intro h y hy
          obtain ⟨k, hk⟩ := List.mem_iff_getElem?.1 hy
          by_contra hset
          have hlt := (h k y hk).2.1 (by simpa using hset)
          omega

/-- The condition of a round that is not idle is what its service loop asks for. -/
lemma inTime_iff (h : Consistent maxCliNum (admitted s r))
    (hroom : ∀ fd ∈ s.cli_fds, fd < fdSetSize) (hidle : ¬ Idle s r) : InTime s r ↔
    Served (reported s r) r 0 (admitted s r).ol_con (admitted s r).cli_fds := by
  have hle := h.ol_con_le
  rw [served_iff]
  constructor
  · rintro ⟨-, hvisited, hclient, hfull⟩ k fd hk
    refine ⟨fun hlt => hvisited hidle k fd hk (by simpa [closedBefore] using hlt), fun hset => ?_,
      fun hc => ?_⟩
    · simpa [closedBefore] using hclient k fd hk hset
    · have hne := hfull fd (List.mem_of_getElem? hk) hc
      omega
  · intro hserved
    refine ⟨hroom, fun _ k fd hk hlt => ?_, fun k fd hk hset => ?_, fun fd hfd hc hmax => ?_⟩
    · exact (hserved k fd hk).1 (by simpa [closedBefore] using hlt)
    · simpa [closedBefore] using (hserved k fd hk).2.1 hset
    · -- the first connection that is closed finds the table full
      obtain ⟨k, hk⟩ := List.mem_iff_getElem?.1 hfd
      induction k using Nat.strong_induction_on generalizing fd with
      | _ k ih =>
          rcases Nat.eq_zero_or_pos (((admitted s r).cli_fds.take k).countP
            (closes (reported s r) r)) with hzero | hsome
          · exact (hserved k fd hk).2.2 hc (by simpa [hzero] using hmax)
          · obtain ⟨y, hy, hcy⟩ := List.countP_pos_iff.1 hsome
            obtain ⟨j, hj⟩ := List.mem_iff_getElem?.1 hy
            have hjk : j < k := by
              by_contra hge
              rw [List.getElem?_take, if_neg hge] at hj
              cases hj
            rw [List.getElem?_take, if_pos hjk] at hj
            exact ih j hjk y (List.mem_of_getElem? hj) hcy hj

lemma reported_mem (h : Consistent maxCliNum s) (hset : reported s r fd = true) :
    fd ∈ s.conns ∧ fd ∈ (admitted s r).cli_fds := by
  have hmon : r.ready fd = true ∧ 0 < fd ∧ fd ∈ s.cli_fds := by
    simpa [reported, Server.monitored] using hset
  have hused : isConn fd = true := by
    simp only [isConn, decide_eq_true_eq]
    omega
  refine ⟨(h.conns fd).2 (List.mem_filter.2 ⟨hmon.2.2, hused⟩), ?_⟩
  have hmem : fd ∈ ({ s with calls := [] } : Server).cli_fds := hmon.2.2
  exact mem_takeIn_cli_fds hmem hused r.ready r.conn_fd

/-- Before the service loop neither the handler nor the macros of the set are called. -/
lemma admitted_calls (s : Server) (r : Round) : Nonneg (admitted s r).calls ∧
    ∀ fd, (admitted s r).calls.count (.clientHandler fd) = 0 := by
  obtain ⟨new, hnew, hquiet⟩ : ∃ new, (admitted s r).calls = [] ++ new ∧
      ∀ c ∈ new, ∃ fd, c = .accept fd ∨ c = .close fd := takeIn_calls _ _ _
  rw [hnew, List.nil_append]
  constructor
  · rintro fd (hfd | hfd)
    · obtain ⟨x, hx | hx⟩ := hquiet _ hfd <;> cases hx
    · obtain ⟨x, hx | hx⟩ := hquiet _ hfd <;> cases hx
  · intro fd
    refine List.count_eq_zero.2 fun hfd => ?_
    obtain ⟨x, hx | hx⟩ := hquiet _ hfd <;> cases hx

lemma reported_eq_false (hidle : Idle s r) (fd : ℤ) : reported s r fd = false := by
  by_contra hset
  have hbusy : s.quiet r.ready r.conn_fd = false := not_quiet (by simpa [reported] using hset)
  rw [Idle, hbusy] at hidle
  cases hidle

/-- A round in which nothing happens is right whatever the table is. -/
lemma roundOk_of_idle (hroom : ∀ fd ∈ s.cli_fds, fd < fdSetSize) (hidle : Idle s r) :
    RoundOk s r := by
  refine ⟨{ s with rd_set := fun _ => false, calls := [] }, ?_, fun fd _ hfd => ?_, ?_⟩
  · rw [round_idle hroom hidle, Comp.ends_pure]
  · rw [reported_eq_false hidle] at hfd
    cases hfd
  · intro fd hfd
    simp at hfd

lemma inTime_of_idle (hroom : ∀ fd ∈ s.cli_fds, fd < fdSetSize) (hidle : Idle s r) :
    InTime s r where
  room := hroom
  visited hbusy := absurd hidle hbusy
  client k fd _ hset := by
    rw [reported_eq_false hidle] at hset
    cases hset
  full fd _ hc := by
    rw [closes, reported_eq_false hidle] at hc
    cases hc

/-- A round that comes to its service loop. -/
lemma roundOk_iff_served (h : Consistent maxCliNum s) (hv : Valid s r)
    (hroom : ∀ fd ∈ s.cli_fds, fd < fdSetSize) (hidle : ¬ Idle s r) : RoundOk s r ↔
      Served (reported s r) r 0 (admitted s r).ol_con (admitted s r).cli_fds := by
  have hp : Consistent maxCliNum (admitted s r) := Consistent.admitted h hv
  have hset : (admitted s r).rd_set = reported s r := takeIn_rd_set _ _ _
  obtain ⟨hnonneg₀, hcount₀⟩ := admitted_calls s r
  rw [RoundOk, round_busy hroom hidle]
  constructor
  · rintro ⟨t, hends, hcount, hnonneg⟩
    obtain ⟨new, hnew⟩ := prefix_of_service hends
    refine served_of_service hp (List.nil_append _).symm (fun y _ => by rw [hset]) hends
      hnew.symm ?_ ?_
    · exact (nonneg_append.1 (hnew ▸ hnonneg)).2
    · intro fd _ hfd
      have hone := hcount fd (reported_mem h hfd).1 hfd
      rwa [← hnew, List.count_append, hcount₀, Nat.zero_add] at hone
  · intro hserved
    obtain ⟨t, new, hends, hcalls, hnonneg, hcount⟩ :=
      service_of_served hp (List.nil_append _).symm (fun y _ => by rw [hset]) hserved
    refine ⟨t, hends, fun fd _ hfd => ?_, ?_⟩
    · rw [hcalls, List.count_append, hcount₀, hcount, if_pos ⟨(reported_mem h hfd).2, hfd⟩]
    · rw [hcalls]
      exact nonneg_append.2 ⟨hnonneg₀, hnonneg⟩

/-- In every state the server comes to, a round serves each client that is reported once, and
no hole, just when it is in time. -/
theorem roundOk_iff (hs : Reachable s) (hv : Valid s r) : RoundOk s r ↔ InTime s r := by
  have h := hs.consistent
  by_cases hroom : ∀ fd ∈ s.cli_fds, fd < fdSetSize
  · by_cases hidle : Idle s r
    · exact iff_of_true (roundOk_of_idle hroom hidle) (inTime_of_idle hroom hidle)
    · rw [roundOk_iff_served h hv hroom hidle,
        inTime_iff (Consistent.admitted h hv) hroom hidle]
  · refine iff_of_false ?_ fun htime => hroom htime.room
    rintro ⟨t, hends, -⟩
    exact hroom (room_of_round hends)

/-- The first round, with a client that connects. -/
theorem roundOk_iff_first :
    RoundOk (start maxCliNum) ⟨fun _ => true, some 5, false, fun _ => .sent⟩ ↔
      InTime (start maxCliNum) ⟨fun _ => true, some 5, false, fun _ => .sent⟩ :=
  roundOk_iff .start (by rintro _ ⟨⟩; decide)

/-! ### A client that is not served -/

def visitor (fd : ℤ) : Round := ⟨fun _ => false, some fd, false, fun _ => .sent⟩

def leaver (fd : ℤ) : Round := ⟨fun x => x = fd, none, false, fun _ => .eof⟩

def asker (fd : ℤ) : Round := ⟨fun x => x = fd, none, false, fun _ => .sent⟩

lemma not_idle_visitor (s : Server) (fd : ℤ) : ¬ Idle s (visitor fd) := by
  simp [Idle, visitor, Server.quiet]

lemma not_idle_of_reported (fd : ℤ) (h : reported s r fd = true) : ¬ Idle s r := by
  intro hidle
  rw [reported_eq_false hidle] at h
  cases h

/-- Two clients connect, and the first one leaves: the second one is behind the hole. -/
theorem not_roundOk_asker : ∃ s₁ s₂ s₃, (round (start maxCliNum) (visitor 5)).Ends (.ok s₁) ∧
    (round s₁ (visitor 6)).Ends (.ok s₂) ∧ (round s₂ (leaver 5)).Ends (.ok s₃) ∧
    Reachable s₃ ∧ Valid s₃ (asker 6) ∧ reported s₃ (asker 6) 6 = true ∧
    ¬ RoundOk s₃ (asker 6) := by
  let s₁ := (admitted (start maxCliNum) (visitor 5)).call (.fdIsset 5)
  let s₂ := ((admitted s₁ (visitor 6)).call (.fdIsset 5)).call (.fdIsset 6)
  have h₁ : (round (start maxCliNum) (visitor 5)).Ends (.ok s₁) :=
    round_ends (by decide +kernel) (not_idle_visitor _ 5) ⟨5, rfl⟩
  have h₂ : (round s₁ (visitor 6)).Ends (.ok s₂) :=
    round_ends (by decide +kernel) (not_idle_visitor _ 6) ⟨5, rfl⟩
  have hleaver : ¬ Idle s₂ (leaver 5) := not_idle_of_reported 5 rfl
  have hreach : Reachable s₂ := by
    refine .round (r := visitor 6) (.round (r := visitor 5) .start ?_ rfl h₁) ?_ rfl h₂
    · rintro _ ⟨⟩
      decide
    · rintro _ ⟨⟩
      decide
  refine ⟨s₁, s₂, _, h₁, h₂, round_ends (by decide +kernel) hleaver ⟨5, rfl⟩, ?_, ?_, rfl, ?_⟩
  · refine .round (r := leaver 5) hreach ?_ rfl
      (round_ends (by decide +kernel) hleaver ⟨5, rfl⟩)
    rintro _ ⟨⟩
  · rintro _ ⟨⟩
  · rintro ⟨t, hends, -, hnonneg⟩
    -- the hole at 0 is looked at
    have ht := hends.unique (round_ends (by decide +kernel) (not_idle_of_reported 6 rfl) ⟨5, rfl⟩)
    cases ht
    have hneg : (0 : ℤ) ≤ -1 := hnonneg (-1) (Or.inl List.mem_cons_self)
    exact absurd hneg (by decide)

end FileServer

end Select

end DemoClass
