import DemoClass.Lib.Comp
import DemoClass.Lib.Slots
import Mathlib.Data.Int.Notation

/-!
# The connection table of the select servers

The two servers that wait with `select` keep their connections in the same way: `cli_fds`
is a table of `MAX_CLI_NUM` descriptors with `-1` in the holes, and `ol_con` counts the
connections.  `main` monitors the descriptors of the table, accepts a connection into the
first hole, and calls the handler for the entries below `ol_con` that are ready; when
nothing is ready before the timeout, it does neither.  The parameters are the size of the
table and the handler.

`Consistent` says that the table and the count are those of the connections that are
open.  Accepting keeps it (`Consistent.accept`), and so does a handler that clears the
entry of a connection, counts down and closes it (`Consistent.leave`).
-/

namespace DemoClass

namespace Select

/-- What can go wrong in a server. -/
inductive Fault where
  | outOfBounds
deriving DecidableEq, Repr

/-- The calls a server makes. -/
inductive Call where
  | accept (fd : ℤ)
  | fdIsset (fd : ℤ)
  | clientHandler (fd : ℤ)
  | write (fd : ℤ) (text : List Char)
  | serverClose (fd : ℤ)
  | fdClr (fd : ℤ)
  | close (fd : ℤ)
deriving DecidableEq, Repr

/-- The variables of a server, with the connections that were accepted and not closed
since, and the calls made so far. -/
structure Server where
  ol_con : ℤ
  cli_fds : List ℤ
  rd_set : ℤ → Bool
  conns : List ℤ
  calls : List Call

/-- `FD_SETSIZE`: the descriptors below it are those that an `fd_set` has room for. -/
def fdSetSize : ℤ := 1024

/-- The table is filled with `-1`. -/
def start (maxCliNum : ℕ) : Server := ⟨0, List.replicate maxCliNum (-1), fun _ => false, [], []⟩

/-- Whether an entry of the table is a descriptor. -/
def isConn (fd : ℤ) : Bool := 0 ≤ fd

namespace Server

def call (s : Server) (c : Call) : Server := { s with calls := s.calls ++ [c] }

/-- `close` -/
def close (s : Server) (fd : ℤ) : Server :=
  { s with conns := s.conns.filter (· ≠ fd), calls := s.calls ++ [.close fd] }

/-- `FD_CLR` -/
def fdClr (s : Server) (fd : ℤ) : Server :=
  { s with rd_set := fun x => s.rd_set x && x ≠ fd, calls := s.calls ++ [.fdClr fd] }

/-- `FD_ISSET`, which is undefined for a negative descriptor: `junk` is what it says
then. -/
def fdIsset (s : Server) (junk : Bool) (fd : ℤ) : Bool := if fd < 0 then junk else s.rd_set fd

/-- What `main` does with the descriptor that `accept` returns. -/
def accept (maxCliNum : ℕ) (s : Server) (conn_fd : ℤ) : Server :=
  let s : Server := { s with conns := conn_fd :: s.conns, calls := s.calls ++ [.accept conn_fd] }
  if s.ol_con = maxCliNum then s.close conn_fd
  else { s with
    cli_fds := Slots.fillFirst isConn conn_fd s.cli_fds
    ol_con := s.ol_con + 1 }

/-- The descriptors `main` calls `FD_SET` for. -/
def monitored (s : Server) (fd : ℤ) : Bool := 0 < fd ∧ fd ∈ s.cli_fds

/-- `select` reports nothing before its timeout, when `ready` are the descriptors that can be
read, and `conn_fd` is what `accept` returns if a connection waits. -/
def quiet (s : Server) (ready : ℤ → Bool) (conn_fd : Option ℤ) : Bool :=
  conn_fd.isNone && s.cli_fds.all fun fd => !(ready fd && s.monitored fd)

/-- What `main` does between `select`, when it reports something, and the service loop. -/
def takeIn (maxCliNum : ℕ) (s : Server) (ready : ℤ → Bool) (conn_fd : Option ℤ) : Server :=
  let s : Server := { s with rd_set := fun fd => ready fd && s.monitored fd }
  match conn_fd with
  | none => s
  | some conn_fd => s.accept maxCliNum conn_fd

/-- The round of `main` up to the service loop, which it comes to (`inr`) unless `select`
reports nothing (`inl`).  `FD_SET` has no room for every descriptor. -/
def poll (maxCliNum : ℕ) (s : Server) (ready : ℤ → Bool) (conn_fd : Option ℤ) :
    Except Fault (Server ⊕ Server) :=
  if ∀ fd ∈ s.cli_fds, fd < fdSetSize then
    if s.quiet ready conn_fd then .ok (.inl { s with rd_set := fun _ => false })
    else .ok (.inr (s.takeIn maxCliNum ready conn_fd))
  else .error .outOfBounds

end Server

/-- The loop over the entries `n <= ol_con` looks at one of them. -/
def clearEntry (clr : Bool) (conn_fd : ℤ) (s : Server) (n : ℕ) : Except Fault Server :=
  match s.cli_fds[n]? with
  | none => .error .outOfBounds
  | some x =>
    if x = conn_fd then
      let s : Server := { s with cli_fds := s.cli_fds.set n (-1) }
      .ok (if clr then s.fdClr conn_fd else s)
    else .ok s

/-- The first rounds of the loop over the entries `n <= ol_con` that clears those of
`conn_fd`, and with `clr` takes it out of `rd_set`. -/
def clearEntries (clr : Bool) (conn_fd : ℤ) (s : Server) : ℕ → Except Fault Server
  | 0 => .ok s
  | n + 1 => do clearEntry clr conn_fd (← clearEntries clr conn_fd s n) n

/-- One round of the service loop, at the index `w.2`.  `FD_ISSET` reads behind the set for a
descriptor that it has no room for. -/
def serviceBody (handler : Server → ℤ → Except Fault Server) (junk : Bool) (w : Server × ℕ) :
    Except Fault ((Server × ℕ) ⊕ Server) :=
  if w.2 < w.1.ol_con then
    match w.1.cli_fds[w.2]? with
    | none => .error .outOfBounds
    | some fd =>
      let s := w.1.call (.fdIsset fd)
      if fd < fdSetSize then
        if s.fdIsset junk fd then do
          let s ← handler (s.call (.clientHandler fd)) fd
          .ok (.inl (s, w.2 + 1))
        else .ok (.inl (s, w.2 + 1))
      else .error .outOfBounds
  else .ok (.inr w.1)

/-! ### Clearing entries -/

variable {maxCliNum n : ℕ} {s s' : Server} {fd conn_fd : ℤ} {clr junk : Bool} {pre post : List ℤ}

/-- The server with the entry between `pre` and `post` cleared. -/
def Server.cleared (s : Server) (clr : Bool) (conn_fd : ℤ) (pre post : List ℤ) : Server :=
  let s : Server := { s with cli_fds := pre ++ -1 :: post }
  if clr then s.fdClr conn_fd else s

@[simp] lemma cleared_ol_con : (s.cleared clr conn_fd pre post).ol_con = s.ol_con := by
  cases clr <;> rfl

@[simp] lemma cleared_cli_fds : (s.cleared clr conn_fd pre post).cli_fds = pre ++ -1 :: post := by
  cases clr <;> rfl

@[simp] lemma cleared_conns : (s.cleared clr conn_fd pre post).conns = s.conns := by
  cases clr <;> rfl

lemma clearEntry_of_ne {x : ℤ} (hx : s.cli_fds[n]? = some x) (hne : x ≠ conn_fd) :
    clearEntry clr conn_fd s n = .ok s := by
  simp [clearEntry, hx, hne]

lemma clearEntry_self (h : s.cli_fds = pre ++ conn_fd :: post) :
    clearEntry clr conn_fd s pre.length = .ok (s.cleared clr conn_fd pre post) := by
  have hget : s.cli_fds[pre.length]? = some conn_fd := by simp [h]
  have hset : s.cli_fds.set pre.length (-1) = pre ++ -1 :: post := by simp [h]
  simp [clearEntry, hget, hset, Server.cleared]

/-- The loop clears the one entry that is the descriptor, when it comes to it. -/
lemma clearEntries_eq (h : s.cli_fds = pre ++ conn_fd :: post) (hpre : conn_fd ∉ pre)
    (hpost : conn_fd ∉ post) (hn : n ≤ s.cli_fds.length) :
    clearEntries clr conn_fd s n =
      .ok (if pre.length < n then s.cleared clr conn_fd pre post else s) := by
  induction n with
  | zero => rfl
  | succ n ih =>
      rw [clearEntries, ih (by omega)]
      show clearEntry clr conn_fd _ n = _
      have hlen : s.cli_fds.length = pre.length + 1 + post.length := by
        rw [h, List.length_append, List.length_cons]
        omega
      rcases Nat.lt_trichotomy n pre.length with hlt | rfl | hgt
      · rw [if_neg (by omega), if_neg (by omega)]
        have hx : s.cli_fds[n]? = some pre[n] := by simp [h, List.getElem?_append_left hlt, hlt]
        refine clearEntry_of_ne hx fun he => hpre ?_
        rw [← he]
        exact List.getElem_mem hlt
      · rw [if_neg (by omega), if_pos (by omega)]
        exact clearEntry_self h
      · rw [if_pos hgt, if_pos (by omega)]
        obtain ⟨k, rfl⟩ : ∃ k, n = pre.length + (k + 1) := ⟨n - pre.length - 1, by omega⟩
        have hk : k < post.length := by omega
        have hx : (s.cleared clr conn_fd pre post).cli_fds[pre.length + (k + 1)]? =
            some post[k] := by
          simp [hk]
        refine clearEntry_of_ne hx fun he => hpost ?_
        rw [← he]
        exact List.getElem_mem hk

lemma length_of_clearEntry (h : clearEntry clr conn_fd s n = .ok s') :
    n < s.cli_fds.length ∧ s'.cli_fds.length = s.cli_fds.length := by
  unfold clearEntry at h
  split at h
  · cases h
  · next x hx =>
    refine ⟨(List.getElem?_eq_some_iff.1 hx).1, ?_⟩
    split_ifs at h <;> cases h <;> simp [Server.fdClr]

/-- A loop that ends has looked at entries of the table only. -/
lemma le_length_of_clearEntries (h : clearEntries clr conn_fd s n = .ok s') :
    n ≤ s.cli_fds.length ∧ s'.cli_fds.length = s.cli_fds.length := by
  induction n generalizing s' with
  | zero =>
      cases h
      exact ⟨Nat.zero_le _, rfl⟩
  | succ n ih =>
      rcases hc : clearEntries clr conn_fd s n with e | t
      · rw [clearEntries, hc] at h
        cases h
      · rw [clearEntries, hc] at h
        obtain ⟨hlt, hlen⟩ := length_of_clearEntry (show clearEntry clr conn_fd t n = .ok s' from h)
        obtain ⟨-, hlen'⟩ := ih hc
        exact ⟨by omega, by omega⟩

/-- A loop that is too long leaves the table. -/
lemma clearEntries_behind (h : s.cli_fds.length < n) :
    clearEntries clr conn_fd s n = .error .outOfBounds := by
  rcases hc : clearEntries clr conn_fd s n with ⟨⟨⟩⟩ | t
  · rfl
  · have hle := (le_length_of_clearEntries hc).1
    omega

/-- A loop that stays within the table ends. -/
lemma exists_clearEntries (h : n ≤ s.cli_fds.length) :
    ∃ t, clearEntries clr conn_fd s n = .ok t := by
  induction n with
  | zero => exact ⟨s, rfl⟩
  | succ n ih =>
      obtain ⟨t, ht⟩ := ih (by omega)
      obtain ⟨-, hlen⟩ := le_length_of_clearEntries ht
      have hlt : n < t.cli_fds.length := by omega
      have hget : t.cli_fds[n]? = some t.cli_fds[n] := List.getElem?_eq_getElem hlt
      rw [clearEntries, ht]
      show ∃ u, clearEntry clr conn_fd t n = .ok u
      simp only [clearEntry, hget]
      split
      · exact ⟨_, rfl⟩
      · exact ⟨_, rfl⟩

/-! ### The service loop -/

section Service

variable {handler : Server → ℤ → Except Fault Server} {i : ℕ}

lemma serviceBody_done (hi : ¬ i < s.ol_con) : serviceBody handler junk (s, i) = .ok (.inr s) :=
  if_neg hi

lemma serviceBody_skip (hi : i < s.ol_con) (hfd : s.cli_fds[i]? = some fd)
    (hroom : fd < fdSetSize) (hset : s.fdIsset junk fd = false) :
    serviceBody handler junk (s, i) = .ok (.inl (s.call (.fdIsset fd), i + 1)) := by
  have hset' : (s.call (.fdIsset fd)).fdIsset junk fd = false := hset
  simp [serviceBody, hi, hfd, hroom, hset']

lemma serviceBody_handle (hi : i < s.ol_con) (hfd : s.cli_fds[i]? = some fd)
    (hroom : fd < fdSetSize) (hset : s.fdIsset junk fd = true) :
    serviceBody handler junk (s, i) =
      (handler ((s.call (.fdIsset fd)).call (.clientHandler fd)) fd).map
        fun t => .inl (t, i + 1) := by
  have hset' : (s.call (.fdIsset fd)).fdIsset junk fd = true := hset
  simp only [serviceBody, hi, hfd, hroom, hset', if_true]
  cases handler ((s.call (.fdIsset fd)).call (.clientHandler fd)) fd <;> rfl

/-- The set has no room for the descriptor. -/
lemma serviceBody_outside (hi : i < s.ol_con) (hfd : s.cli_fds[i]? = some fd)
    (hroom : ¬ fd < fdSetSize) : serviceBody handler junk (s, i) = .error .outOfBounds := by
  simp [serviceBody, hi, hfd, hroom]

/-- Below `ol_con` the loop is not over. -/
lemma serviceBody_ne_inr (hi : i < s.ol_con) :
    serviceBody handler junk (s, i) ≠ .ok (.inr s') := by
  rcases hget : s.cli_fds[i]? with _ | x
  · simp [serviceBody, hi, hget]
  · by_cases hroom : x < fdSetSize
    · by_cases hset : s.fdIsset junk x = true
      · rw [serviceBody_handle hi hget hroom hset]
        cases handler ((s.call (.fdIsset x)).call (.clientHandler x)) x <;> simp [Except.map]
      · rw [serviceBody_skip hi hget hroom (by simpa using hset)]
        simp
    · rw [serviceBody_outside hi hget hroom]
      simp

/-- A round after which the loop goes on has looked at an entry below `ol_con`, which the set
has room for. -/
lemma serviceBody_eq_inl {w : Server × ℕ} (h : serviceBody handler junk (s, i) = .ok (.inl w)) :
    i < s.ol_con ∧ ∃ fd, s.cli_fds[i]? = some fd ∧ fd < fdSetSize := by
  by_cases hi : (i : ℤ) < s.ol_con
  · rcases hget : s.cli_fds[i]? with _ | x
    · simp [serviceBody, hi, hget] at h
    · refine ⟨hi, x, rfl, ?_⟩
      by_contra hroom
      rw [serviceBody_outside hi hget hroom] at h
      cases h
  · simp [serviceBody_done hi] at h

/-- The round that ends the loop leaves the server as it is. -/
lemma serviceBody_eq_inr (h : serviceBody handler junk (s, i) = .ok (.inr s')) :
    ¬ i < s.ol_con ∧ s = s' := by
  by_cases hi : (i : ℤ) < s.ol_con
  · exact absurd h (serviceBody_ne_inr hi)
  · exact ⟨hi, by simpa [serviceBody_done hi] using h⟩

/-- What the visit of each entry preserves, the service loop preserves. -/
lemma serviceLoop_invariant {I : Server → Prop}
    (hvisit : ∀ (u : Server) (j : ℕ) (x : ℤ) (w : Server × ℕ), I u → j < u.ol_con →
      u.cli_fds[j]? = some x → x < fdSetSize → serviceBody handler junk (u, j) = .ok (.inl w) →
      I w.1)
    (h : I s)
    (hends : (Comp.loop (fun w => Comp.ofExcept (serviceBody handler junk w)) (s, i)).Ends
      (.ok s')) : I s' := by
  refine Comp.Ends.loop_invariant (I := fun w : Server × ℕ => I w.1) (P := I) ?_ ?_ h hends
  · rintro ⟨u, j⟩ w hu hw
    have hw' : serviceBody handler junk (u, j) = .ok (.inl w) := (Comp.ends_ofExcept.1 hw).symm
    obtain ⟨hj, x, hx, hroom⟩ := serviceBody_eq_inl hw'
    exact hvisit u j x w hu hj hx hroom hw'
  · rintro ⟨u, j⟩ v hu hv
    obtain ⟨-, rfl⟩ := serviceBody_eq_inr (Comp.ends_ofExcept.1 hv).symm
    exact hu

/-- Below `ol_con` the loop that ends has visited an entry, and ends from there. -/
lemma serviceLoop_next (hi : i < s.ol_con)
    (hends : (Comp.loop (fun w => Comp.ofExcept (serviceBody handler junk w)) (s, i)).Ends
      (.ok s')) :
    ∃ w, serviceBody handler junk (s, i) = .ok (.inl w) ∧
      (Comp.loop (fun w => Comp.ofExcept (serviceBody handler junk w)) w).Ends (.ok s') := by
  rcases Comp.loop_ends_iff.1 hends with ⟨w, hw, hrest⟩ | ⟨v, hv, -⟩ | ⟨e, -, he⟩
  · exact ⟨w, (Comp.ends_ofExcept.1 hw).symm, hrest⟩
  · exact absurd (Comp.ends_ofExcept.1 hv).symm (serviceBody_ne_inr hi)
  · cases he

end Service

/-! ### Polling -/

section Poll

variable {ready : ℤ → Bool} {connected : Option ℤ}

lemma poll_quiet (hroom : ∀ fd ∈ s.cli_fds, fd < fdSetSize)
    (hquiet : s.quiet ready connected = true) :
    s.poll maxCliNum ready connected = .ok (.inl { s with rd_set := fun _ => false }) := by
  rw [Server.poll, if_pos hroom, if_pos hquiet]

lemma poll_takeIn (hroom : ∀ fd ∈ s.cli_fds, fd < fdSetSize)
    (hquiet : s.quiet ready connected = false) :
    s.poll maxCliNum ready connected = .ok (.inr (s.takeIn maxCliNum ready connected)) := by
  rw [Server.poll, if_pos hroom, if_neg (by simp [hquiet])]

lemma poll_outside (hroom : ¬ ∀ fd ∈ s.cli_fds, fd < fdSetSize) :
    s.poll maxCliNum ready connected = .error .outOfBounds := if_neg hroom

/-- A descriptor that is reported breaks the quiet. -/
lemma not_quiet (hfd : (ready fd && s.monitored fd) = true) : s.quiet ready connected = false := by
  rw [Bool.eq_false_iff]
  intro hquiet
  simp only [Server.quiet, Bool.and_eq_true, List.all_eq_true, Bool.not_eq_true'] at hquiet
  have hmem : 0 < fd ∧ fd ∈ s.cli_fds := by
    simp only [Bool.and_eq_true, Server.monitored, decide_eq_true_eq] at hfd
    exact hfd.2
  rw [hquiet.2 fd hmem.2] at hfd
  cases hfd

end Poll

lemma takeIn_rd_set (s : Server) (ready : ℤ → Bool) (conn_fd : Option ℤ) :
    (s.takeIn maxCliNum ready conn_fd).rd_set = fun fd => ready fd && s.monitored fd := by
  cases conn_fd with
  | none => rfl
  | some fd =>
      simp only [Server.takeIn, Server.accept]
      split <;> rfl

/-- Admitting calls neither the handler nor the macros of the set. -/
lemma takeIn_calls (s : Server) (ready : ℤ → Bool) (conn_fd : Option ℤ) :
    ∃ new, (s.takeIn maxCliNum ready conn_fd).calls = s.calls ++ new ∧
      ∀ c ∈ new, ∃ fd, c = .accept fd ∨ c = .close fd := by
  cases conn_fd with
  | none => exact ⟨[], by simp [Server.takeIn], by simp⟩
  | some fd =>
      simp only [Server.takeIn, Server.accept]
      split
      · exact ⟨[.accept fd, .close fd], by simp [Server.close], by simp⟩
      · exact ⟨[.accept fd], rfl, by simp⟩

/-- Admitting keeps the descriptors in the table. -/
lemma mem_takeIn_cli_fds (hfd : fd ∈ s.cli_fds) (hused : isConn fd = true) (ready : ℤ → Bool)
    (conn_fd : Option ℤ) : fd ∈ (s.takeIn maxCliNum ready conn_fd).cli_fds := by
  cases conn_fd with
  | none => exact hfd
  | some x =>
      simp only [Server.takeIn, Server.accept]
      split
      · exact hfd
      · exact Slots.mem_fillFirst hfd hused

/-! ### The table and the connections -/

/-- The count and the table are those of the connections that are open. -/
structure Consistent (maxCliNum : ℕ) (s : Server) : Prop where
  ol_con : s.ol_con = ((s.cli_fds.filter isConn).length : ℤ)
  nodup : (s.cli_fds.filter isConn).Nodup
  conns : ∀ fd, fd ∈ s.conns ↔ fd ∈ s.cli_fds.filter isConn
  length : s.cli_fds.length = maxCliNum

lemma consistent_start (maxCliNum : ℕ) : Consistent maxCliNum (start maxCliNum) := by
  have hnil : (List.replicate maxCliNum (-1 : ℤ)).filter isConn = [] := by
    simp [isConn]
  refine ⟨?_, ?_, ?_, List.length_replicate⟩
  · simp [start, hnil]
  · simp [start, hnil]
  · simp [start, hnil]

namespace Consistent

lemma congr (h : Consistent maxCliNum s) (hol : s'.ol_con = s.ol_con)
    (hfds : s'.cli_fds = s.cli_fds) (hconns : ∀ fd, fd ∈ s'.conns ↔ fd ∈ s.conns) :
    Consistent maxCliNum s' :=
  ⟨by rw [hol, hfds, h.ol_con], by rw [hfds]; exact h.nodup,
    fun fd => by rw [hconns, hfds, h.conns], by rw [hfds, h.length]⟩

lemma ol_con_le (h : Consistent maxCliNum s) : s.ol_con ≤ maxCliNum := by
  have hle := List.length_filter_le isConn s.cli_fds
  rw [h.ol_con]
  have hlen := h.length
  omega

lemma isConn_of_mem (h : Consistent maxCliNum s) (hfd : fd ∈ s.conns) : isConn fd = true :=
  (List.mem_filter.1 ((h.conns fd).1 hfd)).2

/-- A descriptor that is not open is accepted into a hole, or refused. -/
lemma accept (h : Consistent maxCliNum s) (hpos : 0 ≤ conn_fd) (hnew : conn_fd ∉ s.conns) :
    Consistent maxCliNum (s.accept maxCliNum conn_fd) := by
  unfold Server.accept
  dsimp only
  split
  · refine h.congr rfl rfl fun fd => ?_
    by_cases hfd : fd = conn_fd
    · simp [Server.close, hfd, hnew]
    · simp [Server.close, hfd]
  · next hne =>
    have hused : isConn conn_fd = true := by simpa [isConn] using hpos
    have hle := h.ol_con_le
    have hfree : ∃ x ∈ s.cli_fds, isConn x = false := by
      refine Slots.exists_free ?_
      have hol := h.ol_con
      have hlen := h.length
      have hne' : s.ol_con ≠ maxCliNum := hne
      omega
    have hp := Slots.filter_fillFirst hfree hused
    have hnotin : conn_fd ∉ s.cli_fds.filter isConn := fun hmem => hnew ((h.conns conn_fd).2 hmem)
    refine ⟨?_, ?_, fun fd => ?_, ?_⟩
    · show s.ol_con + 1 = _
      rw [hp.length_eq, List.length_cons, h.ol_con]
      push_cast
      rfl
    · exact hp.nodup_iff.2 (List.nodup_cons.2 ⟨hnotin, h.nodup⟩)
    · show fd ∈ conn_fd :: s.conns ↔ _
      rw [hp.mem_iff, List.mem_cons, List.mem_cons, h.conns]
    · rw [Slots.length_fillFirst]
      exact h.length

/-- What `main` does before the service loop. -/
lemma takeIn (h : Consistent maxCliNum s) (ready : ℤ → Bool) {conn_fd : Option ℤ}
    (hv : ∀ fd, conn_fd = some fd → 0 ≤ fd ∧ fd ∉ s.conns) :
    Consistent maxCliNum (s.takeIn maxCliNum ready conn_fd) := by
  have h' : Consistent maxCliNum { s with rd_set := fun fd => ready fd && s.monitored fd } :=
    h.congr rfl rfl fun _ => Iff.rfl
  cases conn_fd with
  | none => exact h'
  | some fd =>
      obtain ⟨hpos, hnew⟩ := hv fd rfl
      exact h'.accept hpos hnew

/-- The entry of a connection is cleared, and the connection closed. -/
lemma leave (h : Consistent maxCliNum s) (hfds : s.cli_fds = pre ++ fd :: post) (hpos : 0 ≤ fd)
    (hol' : s'.ol_con = s.ol_con - 1) (hfds' : s'.cli_fds = pre ++ -1 :: post)
    (hconns' : ∀ x, x ∈ s'.conns ↔ x ∈ s.conns ∧ x ≠ fd) : Consistent maxCliNum s' := by
  have hused : isConn fd = true := by simpa [isConn] using hpos
  have hp : (s.cli_fds.filter isConn).Perm (fd :: s'.cli_fds.filter isConn) := by
    rw [hfds, hfds']
    exact Slots.filter_free hused rfl
  have hn := List.nodup_cons.1 (hp.nodup_iff.1 h.nodup)
  refine ⟨?_, hn.2, fun x => ?_, ?_⟩
  · have hlen := hp.length_eq
    rw [List.length_cons] at hlen
    rw [hol', h.ol_con, hlen]
    push_cast
    omega
  · rw [hconns', h.conns, hp.mem_iff, List.mem_cons]
    constructor
    · rintro ⟨rfl | hx, hne⟩
      · exact absurd rfl hne
      · exact hx
    · intro hx
      exact ⟨Or.inr hx, fun he => hn.1 (he ▸ hx)⟩
  · have hlen := h.length
    rw [hfds, List.length_append, List.length_cons] at hlen
    rw [hfds', List.length_append, List.length_cons, hlen]

/-- The loop over the entries `n <= ol_con` clears the entry of a connection below
`ol_con`. -/
lemma clearEntries_eq (h : Consistent maxCliNum s) (hfds : s.cli_fds = pre ++ fd :: post)
    (hpos : 0 ≤ fd) (hi : pre.length < s.ol_con) (hne : s.ol_con ≠ maxCliNum) :
    clearEntries clr fd s (s.ol_con + 1).toNat = .ok (s.cleared clr fd pre post) := by
  have hle := h.ol_con_le
  have hlen := h.length
  have hused : isConn fd = true := by simpa [isConn] using hpos
  have hnot := Slots.notMem_of_nodup (hfds ▸ h.nodup) hused
  rw [Select.clearEntries_eq hfds hnot.1 hnot.2 (by omega), if_pos (by omega)]

/-- With a full table it looks at the entry behind the end. -/
lemma clearEntries_full (h : Consistent maxCliNum s) (hfull : s.ol_con = maxCliNum) :
    clearEntries clr fd s (s.ol_con + 1).toNat = .error .outOfBounds := by
  have hlen := h.length
  exact clearEntries_behind (by omega)

end Consistent

end Select

end DemoClass
