import DemoClass.Select.FileServer
import DemoClass.Select.TcpSelect
import Mathlib.Data.List.DropRight

/-!
# The file server closes its connections (`04File_Server/server.c`)

The calls of a whole run are kept, and `since` are those after a descriptor was accepted
for the last time.  `server_close` counts down and closes the connection.  When a request
cannot be read or has no file name, `client_handler` closes it once more.

`always_once_iff` says that every connection is closed at most once, and counted down for
at most once, just when no request is of this kind, and none ends with a full table, where
`server_close` looks behind the end of it.
-/

namespace DemoClass

namespace Select

namespace FileServer

open TcpSelect (Machine Pc)

/-- What the outside does in a step: the descriptors that are ready and the connection that
is accepted, or what becomes of the request of the entry that is visited. -/
inductive Event where
  | poll (ready : ℤ → Bool) (conn_fd : Option ℤ)
  | visit (junk : Bool) (req : Request)

/-- A step of `main`. -/
def step (m : Machine) : Event → Option (Machine × List Empty)
  | .poll ready conn_fd =>
    match m.pc with
    | .poll =>
      match m.srv.poll maxCliNum ready conn_fd with
      | .ok (.inl s) => some (⟨s, .poll⟩, [])
      | .ok (.inr s) => some (⟨s, .service 0⟩, [])
      | .error _ => some (⟨m.srv, .undefined⟩, [])
    | _ => none
  | .visit junk req =>
    match m.pc with
    | .service i =>
      match serviceBody (clientHandler fun _ => req) junk (m.srv, i) with
      | .ok (.inl (s, i)) => some (⟨s, .service i⟩, [])
      | .ok (.inr s) => some (⟨s, .poll⟩, [])
      | .error _ => some (⟨m.srv, .undefined⟩, [])
    | _ => none

/-- The server before its first round. -/
def init : Machine := ⟨start maxCliNum, .poll⟩

/-- `accept` returns a descriptor that is not open. -/
def ValidEvent (m : Machine) : Event → Prop
  | .poll _ conn_fd => ∀ fd, conn_fd = some fd → 0 ≤ fd ∧ fd ∉ m.srv.conns
  | .visit _ _ => True

instance decidableValidEvent (m : Machine) : ∀ e, Decidable (ValidEvent m e)
  | .poll _ conn_fd => inferInstanceAs (Decidable (∀ fd ∈ conn_fd, 0 ≤ fd ∧ fd ∉ m.srv.conns))
  | .visit _ _ => isTrue trivial

/-! ### The calls since a descriptor was accepted -/

/-- The calls after `accept` has returned the descriptor for the last time. -/
def since (fd : ℤ) (calls : List Call) : List Call := calls.rtakeWhile (· ≠ .accept fd)

/-- Since each descriptor was accepted, it was closed at most once, and `server_close`, which
counts down, was called for it at most once. -/
def Once (calls : List Call) : Prop :=
  ∀ fd, .accept fd ∈ calls → (since fd calls).count (.close fd) ≤ 1 ∧
    (since fd calls).count (.serverClose fd) ≤ 1

/-- No access was outside the table or the set, behind which anything may be closed, and each
connection was closed once. -/
structure Ok (m : Machine) : Prop where
  defined : m.pc ≠ .undefined
  once : Once m.srv.calls

variable {fd x : ℤ} {calls new : List Call}

lemma since_append (h : .accept fd ∉ new) : since fd (calls ++ new) = since fd calls ++ new := by
  induction new using List.reverseRecOn with
  | nil => simp
  | append_singleton new c ih =>
      rw [List.mem_append, not_or, List.mem_singleton] at h
      have hc : c ≠ .accept fd := fun he => h.2 he.symm
      rw [since] at ih ⊢
      rw [← List.append_assoc, List.rtakeWhile_concat, if_pos (by simpa using hc), ih h.1,
        List.append_assoc]

lemma since_accept (h : .accept fd ∉ new) : since fd (calls ++ .accept fd :: new) = new := by
  rw [List.append_cons, since_append h, since, List.rtakeWhile_concat, if_neg (by simp),
    List.nil_append]

/-- Calls that are not about an accepted descriptor. -/
def Apart (calls new : List Call) : Prop :=
  ∀ fd, .accept fd ∉ new ∧ (.accept fd ∈ calls → .close fd ∉ new ∧ .serverClose fd ∉ new)

/-- No connection that is open was closed since it was accepted. -/
def Fresh (conns : List ℤ) (calls : List Call) : Prop :=
  ∀ fd ∈ conns, .close fd ∉ since fd calls ∧ .serverClose fd ∉ since fd calls

lemma Once.append (h : Once calls) (hnew : Apart calls new) : Once (calls ++ new) := by
  intro fd hfd
  obtain ⟨hacc, hmem⟩ := hnew fd
  have hfd' : .accept fd ∈ calls := (List.mem_append.1 hfd).resolve_right hacc
  obtain ⟨hclose, hserver⟩ := hmem hfd'
  rw [since_append hacc, List.count_append, List.count_append, List.count_eq_zero.2 hclose,
    List.count_eq_zero.2 hserver]
  exact h fd hfd'

/-- Another descriptor is accepted, or the same one anew. -/
lemma Once.accept (h : Once calls) (hnew : new = [] ∨ new = [.close fd]) :
    Once (calls ++ .accept fd :: new) := by
  intro x hx
  have hacc : ∀ y, .accept y ∉ new := by
    intro y
    rcases hnew with rfl | rfl <;> simp
  by_cases hxfd : x = fd
  · subst hxfd
    rw [since_accept (hacc x)]
    rcases hnew with rfl | rfl <;> simp
  · have hne : fd ≠ x := fun he => hxfd he.symm
    have hacc' : .accept x ∉ .accept fd :: new := by simp [hxfd, hacc x]
    have hx' : .accept x ∈ calls := (List.mem_append.1 hx).resolve_right hacc'
    obtain ⟨hclose, hserver⟩ := h x hx'
    rw [since_append hacc', List.count_append, List.count_append]
    rcases hnew with rfl | rfl
    · simpa using ⟨hclose, hserver⟩
    · simpa [hne] using ⟨hclose, hserver⟩

/-- `server_close` of an open connection. -/
lemma Once.close (h : Once calls) (hclose : .close fd ∉ since fd calls)
    (hserver : .serverClose fd ∉ since fd calls) :
    Once (calls ++ [.serverClose fd, .fdClr fd, .close fd]) := by
  intro x hx
  have hacc : .accept x ∉ [Call.serverClose fd, .fdClr fd, .close fd] := by simp
  have hx' : .accept x ∈ calls := (List.mem_append.1 hx).resolve_right hacc
  rw [since_append hacc, List.count_append, List.count_append]
  by_cases hxfd : x = fd
  · rw [hxfd, List.count_eq_zero.2 hclose, List.count_eq_zero.2 hserver]
    simp
  · have hne : fd ≠ x := fun he => hxfd he.symm
    simpa [hne] using h x hx'

/-- Closing it once more is once too often. -/
lemma not_once_close_twice (hfd : .accept fd ∈ calls) :
    ¬ Once (calls ++ [.serverClose fd, .fdClr fd, .close fd, .close fd]) := by
  intro h
  have hacc : .accept fd ∉ [Call.serverClose fd, .fdClr fd, .close fd, .close fd] := by simp
  have hle := (h fd (List.mem_append_left _ hfd)).1
  rw [since_append hacc, List.count_append] at hle
  have htwo : [Call.serverClose fd, .fdClr fd, .close fd, .close fd].count (.close fd) = 2 := by
    simp
  omega

/-- The connections stay the same, and so do those of the table, and no call is about an accepted
descriptor. -/
structure Kept (s t : Server) : Prop where
  ol_con_le : t.ol_con ≤ s.ol_con
  length : t.cli_fds.length = s.cli_fds.length
  cli_fds : t.cli_fds.filter isConn = s.cli_fds.filter isConn
  conns : ∀ fd, fd ∈ t.conns ↔ fd ∈ s.conns
  calls : ∃ new, t.calls = s.calls ++ new ∧ Apart s.calls new

namespace Kept

variable {s t u : Server}

lemma refl (s : Server) : Kept s s :=
  ⟨Int.le_refl _, rfl, rfl, fun _ => Iff.rfl, [], by simp, by simp [Apart]⟩

lemma trans (h : Kept s t) (h' : Kept t u) : Kept s u := by
  obtain ⟨new, hcalls, hnew⟩ := h.calls
  obtain ⟨new', hcalls', hnew'⟩ := h'.calls
  refine ⟨Int.le_trans h'.ol_con_le h.ol_con_le, h'.length.trans h.length,
    h'.cli_fds.trans h.cli_fds, fun fd => (h'.conns fd).trans (h.conns fd), new ++ new', ?_,
    fun fd => ⟨?_, fun hfd => ?_⟩⟩
  · rw [hcalls', hcalls, List.append_assoc]
  · rw [List.mem_append, not_or]
    exact ⟨(hnew fd).1, (hnew' fd).1⟩
  · obtain ⟨hclose, hserver⟩ := (hnew fd).2 hfd
    obtain ⟨hclose', hserver'⟩ := (hnew' fd).2 (hcalls ▸ List.mem_append_left new hfd)
    rw [List.mem_append, List.mem_append, not_or, not_or]
    exact ⟨⟨hclose, hclose'⟩, hserver, hserver'⟩

lemma accept_notMem (h : Kept s t) (hfd : .accept fd ∉ s.calls) : .accept fd ∉ t.calls := by
  obtain ⟨new, hcalls, hnew⟩ := h.calls
  rw [hcalls, List.mem_append, not_or]
  exact ⟨hfd, (hnew fd).1⟩

lemma call {c : Call} (hc : Apart s.calls [c]) : Kept s (s.call c) :=
  ⟨Int.le_refl _, rfl, rfl, fun _ => Iff.rfl, [c], rfl, hc⟩

lemma fdIsset (s : Server) (fd : ℤ) : Kept s (s.call (.fdIsset fd)) := call (by simp [Apart])

lemma clientHandler (s : Server) (fd : ℤ) : Kept s (s.call (.clientHandler fd)) :=
  call (by simp [Apart])

/-- A descriptor is closed that was never accepted. -/
lemma close (hfd : fd ∉ s.conns) (hacc : .accept fd ∉ s.calls) : Kept s (s.close fd) := by
  refine ⟨Int.le_refl _, rfl, rfl, fun x => ?_, [.close fd], rfl, fun x => ?_⟩
  · have hne : x ∈ s.conns → x ≠ fd := fun hx he => hfd (he ▸ hx)
    simpa [Server.close] using hne
  · have hne : .accept x ∈ s.calls → x ≠ fd := fun hx he => hacc (he ▸ hx)
    simpa using hne

/-- Clearing the entries that are no connections. -/
lemma clearEntries {clr : Bool} {n : ℕ} (hneg : fd < 0) (h : clearEntries clr fd s n = .ok t) :
    Kept s t := by
  induction n generalizing t with
  | zero =>
      obtain rfl := Except.ok.inj h
      exact refl s
  | succ n ih =>
      rcases hc : Select.clearEntries clr fd s n with e | u
      · rw [Select.clearEntries, hc] at h
        cases h
      · refine (ih hc).trans ?_
        rw [Select.clearEntries, hc] at h
        have hentry : clearEntry clr fd u n = .ok t := h
        rcases hx : u.cli_fds[n]? with _ | x
        · simp [clearEntry, hx] at hentry
        · by_cases hxfd : x = fd
          · subst hxfd
            obtain ⟨pre, post, hfds, rfl⟩ := Slots.exists_split hx
            obtain rfl : u.cleared clr x pre post = t := by
              simpa [clearEntry_self hfds] using hentry
            refine ⟨?_, ?_, ?_, fun y => ?_, ?_⟩
            · exact Int.le_of_eq cleared_ol_con
            · simp [hfds]
            · have hx : ¬ 0 ≤ x := by omega
              rw [cleared_cli_fds, hfds]
              simp [isConn, hx]
            · rw [cleared_conns]
            · cases clr with
              | false => exact ⟨[], by simp [Server.cleared], by simp [Apart]⟩
              | true => exact ⟨[.fdClr x], rfl, by simp [Apart]⟩
          · obtain rfl : u = t := by simpa [clearEntry_of_ne hx hxfd] using hentry
            exact refl u

end Kept

/-- The table may miss a connection, but has none that is closed, and `ol_con` counts no more than
are in it. -/
structure Tidy (s : Server) : Prop where
  ol_con_le : s.ol_con ≤ ((s.cli_fds.filter isConn).length : ℤ)
  length : s.cli_fds.length = maxCliNum
  nodup : (s.cli_fds.filter isConn).Nodup
  isOpen : ∀ fd ∈ s.cli_fds.filter isConn, fd ∈ s.conns
  accepted : ∀ fd ∈ s.conns, .accept fd ∈ s.calls
  nonneg : ∀ fd, .accept fd ∈ s.calls → 0 ≤ fd
  fresh : Fresh s.conns s.calls
  once : Once s.calls

lemma tidy_start : Tidy (start maxCliNum) := by
  have hnil : (List.replicate maxCliNum (-1 : ℤ)).filter isConn = [] := by
    simp [isConn]
  refine ⟨?_, List.length_replicate, ?_, ?_, ?_, ?_, ?_, ?_⟩
  · simp [start, hnil]
  · simp [start, hnil]
  · simp [start, hnil]
  · simp [start]
  · simp [start]
  · simp [Fresh, start]
  · simp [Once, start]

namespace Tidy

variable {s s' : Server}

lemma ol_con_le_max (h : Tidy s) : s.ol_con ≤ maxCliNum := by
  have hle := h.ol_con_le
  have hfilter := List.length_filter_le isConn s.cli_fds
  have hlen := h.length
  omega

lemma of_kept (h : Tidy s) (hk : Kept s s') : Tidy s' := by
  obtain ⟨new, hcalls, hnew⟩ := hk.calls
  refine ⟨?_, hk.length.trans h.length, hk.cli_fds ▸ h.nodup, fun fd hfd => ?_,
    fun fd hfd => ?_, fun fd hfd => ?_, fun fd hfd => ?_, ?_⟩
  · rw [hk.cli_fds]
    exact Int.le_trans hk.ol_con_le h.ol_con_le
  · rw [hk.cli_fds] at hfd
    exact (hk.conns fd).2 (h.isOpen fd hfd)
  · rw [hcalls]
    exact List.mem_append_left _ (h.accepted fd ((hk.conns fd).1 hfd))
  · rw [hcalls] at hfd
    exact h.nonneg fd ((List.mem_append.1 hfd).resolve_right (hnew fd).1)
  · have hs := (hk.conns fd).1 hfd
    obtain ⟨hclose, hserver⟩ := (hnew fd).2 (h.accepted fd hs)
    rw [hcalls, since_append (hnew fd).1, List.mem_append, List.mem_append, not_or, not_or]
    exact ⟨⟨(h.fresh fd hs).1, hclose⟩, (h.fresh fd hs).2, hserver⟩
  · rw [hcalls]
    exact h.once.append hnew

/-- A descriptor that is not open is accepted, and closed at once. -/
lemma refuse (h : Tidy s) (hpos : 0 ≤ fd) (hnew : fd ∉ s.conns) :
    Tidy (({ s with conns := fd :: s.conns, calls := s.calls ++ [.accept fd] } : Server).close
      fd) := by
  have hne : ∀ x ∈ s.conns, x ≠ fd := fun x hx he => hnew (he ▸ hx)
  have hconns : ∀ x, x ∈ (fd :: s.conns).filter (· ≠ fd) ↔ x ∈ s.conns := by
    intro x
    by_cases hx : x = fd
    · simp [hx, hnew]
    · simp [hx]
  have hcalls : s.calls ++ [.accept fd] ++ [.close fd] = s.calls ++ .accept fd :: [.close fd] := by
    simp
  refine ⟨h.ol_con_le, h.length, h.nodup, fun x hx => (hconns x).2 (h.isOpen x hx),
    fun x hx => ?_, fun x hx => ?_, fun x hx => ?_, ?_⟩
  · simpa [Server.close] using Or.inl (h.accepted x ((hconns x).1 hx))
  · have hx' : .accept x ∈ s.calls ∨ x = fd := by simpa [Server.close] using hx
    rcases hx' with hx' | rfl
    · exact h.nonneg x hx'
    · exact hpos
  · have hs := (hconns x).1 hx
    have hacc : .accept x ∉ [Call.accept fd, .close fd] := by simp [hne x hs]
    obtain ⟨hclose, hserver⟩ := h.fresh x hs
    simp only [Server.close, hcalls, since_append hacc]
    simp [hclose, hserver, hne x hs]
  · simp only [Server.close, hcalls]
    exact h.once.accept (Or.inr rfl)

/-- The descriptors of the table, after one is put into a hole if there is one. -/
lemma fill (h : Tidy s) (hpos : 0 ≤ fd) (hnew : fd ∉ s.conns) :
    ((Slots.fillFirst isConn fd s.cli_fds).filter isConn).Nodup ∧
      ∀ x ∈ (Slots.fillFirst isConn fd s.cli_fds).filter isConn, x ∈ fd :: s.conns := by
  have hused : isConn fd = true := by simpa [isConn] using hpos
  by_cases hfree : ∃ x ∈ s.cli_fds, isConn x = false
  · have hp := Slots.filter_fillFirst hfree hused
    refine ⟨hp.nodup_iff.2 (List.nodup_cons.2 ⟨fun hmem => hnew (h.isOpen fd hmem), h.nodup⟩),
      fun x hx => ?_⟩
    rcases List.mem_cons.1 (hp.mem_iff.1 hx) with rfl | hx
    · exact List.mem_cons_self
    · exact List.mem_cons_of_mem fd (h.isOpen x hx)
  · have hfill : Slots.fillFirst isConn fd s.cli_fds = s.cli_fds :=
      Slots.fillFirst_of_used fun x hx => by simpa using fun hx' => hfree ⟨x, hx, hx'⟩
    rw [hfill]
    exact ⟨h.nodup, fun x hx => List.mem_cons_of_mem fd (h.isOpen x hx)⟩

/-- There is one more then, or the table is full. -/
lemma length_fill (h : Tidy s) (hpos : 0 ≤ fd) :
    ((Slots.fillFirst isConn fd s.cli_fds).filter isConn).length =
        (s.cli_fds.filter isConn).length + 1 ∨
      ((Slots.fillFirst isConn fd s.cli_fds).filter isConn).length = maxCliNum := by
  have hused : isConn fd = true := by simpa [isConn] using hpos
  by_cases hfree : ∃ x ∈ s.cli_fds, isConn x = false
  · left
    rw [(Slots.filter_fillFirst hfree hused).length_eq, List.length_cons]
  · right
    have hall : ∀ x ∈ s.cli_fds, isConn x = true := fun x hx => by
      simpa using fun hx' => hfree ⟨x, hx, hx'⟩
    rw [Slots.fillFirst_of_used hall, List.filter_eq_self.2 hall, h.length]

/-- A descriptor that is not open is accepted, into a hole if there is one. -/
lemma accept (h : Tidy s) (hpos : 0 ≤ fd) (hnew : fd ∉ s.conns) :
    Tidy (s.accept maxCliNum fd) := by
  unfold Server.accept
  dsimp only
  split
  · exact h.refuse hpos hnew
  · next hfull =>
    obtain ⟨hnodup, hmem⟩ := h.fill hpos hnew
    refine ⟨?_, ?_, hnodup, hmem, fun x hx => ?_, fun x hx => ?_, fun x hx => ?_, ?_⟩
    · have hroom := h.length_fill hpos
      have hle := h.ol_con_le
      have hmax := h.ol_con_le_max
      have hlt : s.ol_con ≠ maxCliNum := hfull
      show s.ol_con + 1 ≤ ((Slots.fillFirst isConn fd s.cli_fds).filter isConn).length
      omega
    · rw [Slots.length_fillFirst]
      exact h.length
    · rcases List.mem_cons.1 hx with rfl | hx
      · simp
      · exact List.mem_append_left _ (h.accepted x hx)
    · have hx' : .accept x ∈ s.calls ∨ x = fd := by simpa using hx
      rcases hx' with hx' | rfl
      · exact h.nonneg x hx'
      · exact hpos
    · rcases List.mem_cons.1 hx with rfl | hx
      · simp [since_accept]
      · have hne : x ≠ fd := fun he => hnew (he ▸ hx)
        have hacc : .accept x ∉ [Call.accept fd] := by simp [hne]
        obtain ⟨hclose, hserver⟩ := h.fresh x hx
        simp only [since_append hacc]
        simp [hclose, hserver]
    · exact h.once.accept (Or.inl rfl)

/-- The set says nothing about the table. -/
lemma set (h : Tidy s) (rd_set : ℤ → Bool) : Tidy { s with rd_set } :=
  ⟨h.ol_con_le, h.length, h.nodup, h.isOpen, h.accepted, h.nonneg, h.fresh, h.once⟩

/-- What `main` does before the service loop. -/
lemma takeIn (h : Tidy s) (ready : ℤ → Bool) {conn_fd : Option ℤ}
    (hv : ∀ fd, conn_fd = some fd → 0 ≤ fd ∧ fd ∉ s.conns) :
    Tidy (s.takeIn maxCliNum ready conn_fd) := by
  have h' : Tidy { s with rd_set := fun fd => ready fd && s.monitored fd } := h.set _
  cases conn_fd with
  | none => exact h'
  | some fd =>
      obtain ⟨hpos, hnew⟩ := hv fd rfl
      exact h'.accept hpos hnew

/-- `server_close` of what is no descriptor. -/
lemma serverClose_neg (h : Tidy s) (hneg : fd < 0) (hs : serverClose s fd = .ok s') :
    Kept s s' := by
  have hacc : .accept fd ∉ s.calls := fun hmem => by
    have hpos := h.nonneg fd hmem
    omega
  have hconns : fd ∉ s.conns := fun hmem => hacc (h.accepted fd hmem)
  have hcall : Kept s (s.call (.serverClose fd)) := by
    refine Kept.call fun x => ⟨by simp, fun hx => ?_⟩
    have hne : x ≠ fd := fun he => hacc (he ▸ hx)
    simpa using hne
  rw [serverClose_def] at hs
  rcases hc : clearEntries true fd (s.call (.serverClose fd)) (s.ol_con + 1).toNat with e | t
  · rw [hc] at hs
    cases hs
  · rw [hc] at hs
    obtain rfl := Except.ok.inj hs
    have ht := hcall.trans (Kept.clearEntries hneg hc)
    have hdown : Kept t { t with ol_con := t.ol_con - 1 } :=
      ⟨by show t.ol_con - 1 ≤ t.ol_con; omega, rfl, rfl, fun _ => Iff.rfl, [], by simp,
        by simp [Apart]⟩
    have ht' := ht.trans hdown
    exact ht'.trans (Kept.close (fun hmem => hconns ((ht'.conns fd).1 hmem))
      (ht'.accept_notMem hacc))

/-- An open connection is closed and leaves the table. -/
lemma closed {pre post : List ℤ} (h : Tidy s) (hfds : s.cli_fds = pre ++ fd :: post)
    (hpos : 0 ≤ fd) : Tidy (closed s fd pre post) := by
  have hused : isConn fd = true := by simpa [isConn] using hpos
  have hopen : fd ∈ s.conns := h.isOpen fd (List.mem_filter.2 ⟨by simp [hfds], hused⟩)
  have hp : (s.cli_fds.filter isConn).Perm (fd :: (pre ++ -1 :: post).filter isConn) := by
    rw [hfds]
    exact Slots.filter_free hused rfl
  have hn := List.nodup_cons.1 (hp.nodup_iff.1 h.nodup)
  have hcalls : (FileServer.closed s fd pre post).calls =
      s.calls ++ [.serverClose fd, .fdClr fd, .close fd] := by
    simp [FileServer.closed, Server.close, Server.cleared, Server.fdClr, Server.call]
  have hconns : ∀ x, x ∈ (FileServer.closed s fd pre post).conns ↔ x ∈ s.conns ∧ x ≠ fd := by
    simp [FileServer.closed, Server.close, Server.cleared, Server.fdClr, Server.call]
  have hacc : ∀ x, .accept x ∉ [Call.serverClose fd, .fdClr fd, .close fd] := by simp
  refine ⟨?_, ?_, hn.2, fun x hx => ?_, fun x hx => ?_, fun x hx => ?_, fun x hx => ?_, ?_⟩
  · have hle := h.ol_con_le
    have hlen := hp.length_eq
    rw [List.length_cons] at hlen
    show s.ol_con - 1 ≤ ((pre ++ -1 :: post).filter isConn).length
    omega
  · have hlen := h.length
    rw [hfds] at hlen
    show (pre ++ -1 :: post).length = _
    simpa using hlen
  · have hx' : x ∈ s.cli_fds.filter isConn := hp.mem_iff.2 (List.mem_cons_of_mem fd hx)
    exact (hconns x).2 ⟨h.isOpen x hx', fun he => hn.1 (he ▸ hx)⟩
  · rw [hcalls]
    exact List.mem_append_left _ (h.accepted x ((hconns x).1 hx).1)
  · rw [hcalls] at hx
    exact h.nonneg x ((List.mem_append.1 hx).resolve_right (hacc x))
  · obtain ⟨hs, hne⟩ := (hconns x).1 hx
    obtain ⟨hclose, hserver⟩ := h.fresh x hs
    rw [hcalls, since_append (hacc x)]
    simp [hclose, hserver, hne]
  · rw [hcalls]
    exact h.once.close (h.fresh fd hopen).1 (h.fresh fd hopen).2

end Tidy

/-! ### The handler -/

variable {s s' t : Server} {i : ℕ} {req : Request}

/-- A request whose end closes the connection once, and does not look behind the table for it. -/
def ClosesOnce (s : Server) (req : Request) : Prop :=
  req ≠ .failed ∧ req ≠ .invalid ∧ (req.closes = true → s.ol_con ≠ maxCliNum)

/-- An entry that is no descriptor cannot be read, and is closed in vain; it is a hole, so that
`ol_con` is less than the size of the table. -/
lemma clientHandler_neg (h : Tidy s) (hfd : s.cli_fds[i]? = some fd) (hneg : fd < 0) :
    ∃ s', clientHandler (fun _ => req) s fd = .ok s' ∧ Tidy s' := by
  have hhole : (s.cli_fds.filter isConn).length < s.cli_fds.length := by
    rw [List.length_filter_lt_length_iff_exists]
    exact ⟨fd, List.mem_of_getElem? hfd, by simpa [isConn] using hneg⟩
  have hle := h.ol_con_le
  obtain ⟨t, ht⟩ : ∃ t, serverClose s fd = .ok t := by
    have hn : (s.ol_con + 1).toNat ≤ (s.call (.serverClose fd)).cli_fds.length := by
      show (s.ol_con + 1).toNat ≤ s.cli_fds.length
      omega
    obtain ⟨u, hu⟩ : ∃ u, clearEntries true fd (s.call (.serverClose fd)) (s.ol_con + 1).toNat =
        .ok u := exists_clearEntries hn
    exact ⟨_, by rw [serverClose_def, hu]; rfl⟩
  have hacc : .accept fd ∉ s.calls := fun hmem => by
    have hpos := h.nonneg fd hmem
    omega
  have hk := h.serverClose_neg hneg ht
  refine ⟨t.close fd, by rw [clientHandler, if_pos hneg, ht]; rfl, h.of_kept (hk.trans ?_)⟩
  exact Kept.close (fun hmem => hacc (h.accepted fd ((hk.conns fd).1 hmem)))
    (hk.accept_notMem hacc)

/-- A request whose end closes the connection, with a full table. -/
lemma clientHandler_full (h : Tidy s) (hpos : 0 ≤ fd) (hfull : s.ol_con = maxCliNum)
    (hc : req.closes = true) : clientHandler (fun _ => req) s fd = .error .outOfBounds := by
  have hneg : ¬ fd < 0 := by omega
  have hclose : serverClose s fd = .error .outOfBounds := serverClose_full h.length hfull
  rw [clientHandler, if_neg hneg]
  cases req with
  | sent => cases hc
  | failed => simp only [hclose]; rfl
  | invalid => simp only [hclose]; rfl
  | eof => simp only [hclose]
  | unsent => simp only [hclose]

/-- What the handler may do: it keeps the table tidy if the request closes once, and otherwise
looks behind the table or closes the connection twice. -/
def Handled (s : Server) (req : Request) (fd : ℤ) : Prop :=
  (ClosesOnce s req → ∃ s', clientHandler (fun _ => req) s fd = .ok s' ∧ Tidy s') ∧
    (¬ ClosesOnce s req → ∀ s', clientHandler (fun _ => req) s fd = .ok s' → ¬ Once s'.calls)

lemma handled_full (req : Request) (h : Tidy s) (hpos : 0 ≤ fd) (hfull : s.ol_con = maxCliNum) :
    Handled s req fd := by
  by_cases hc : req.closes = true
  · refine ⟨fun honce => absurd hfull (honce.2.2 hc), fun _ s' hs' => ?_⟩
    rw [clientHandler_full h hpos hfull hc] at hs'
    cases hs'
  · have hsent : req = .sent := by
      cases req <;> simp_all [Request.closes]
    subst hsent
    refine ⟨fun _ => ⟨s, clientHandler_of_not_closes hpos rfl, h⟩, fun hno => ?_⟩
    exact absurd ⟨by simp, by simp, by simp [Request.closes]⟩ hno

/-- A connection of the table that is closed twice. -/
lemma not_once_closed {pre post : List ℤ} (h : Tidy s) (hfds : s.cli_fds = pre ++ fd :: post)
    (hpos : 0 ≤ fd) : ¬ Once ((closed s fd pre post).close fd).calls := by
  have hused : isConn fd = true := by simpa [isConn] using hpos
  have hopen : fd ∈ s.conns := h.isOpen fd (List.mem_filter.2 ⟨by simp [hfds], hused⟩)
  have hcalls : ((closed s fd pre post).close fd).calls =
      s.calls ++ [.serverClose fd, .fdClr fd, .close fd, .close fd] := by
    simp [closed, Server.close, Server.cleared, Server.fdClr, Server.call]
  rw [hcalls]
  exact not_once_close_twice (h.accepted fd hopen)

lemma handled_conn (req : Request) (h : Tidy s) (hfd : s.cli_fds[i]? = some fd)
    (hi : i < s.ol_con) (hpos : 0 ≤ fd) (hfull : s.ol_con ≠ maxCliNum) : Handled s req fd := by
  obtain ⟨pre, post, hfds, rfl⟩ := Slots.exists_split hfd
  have hused : isConn fd = true := by simpa [isConn] using hpos
  have hnot := Slots.notMem_of_nodup (hfds ▸ h.nodup) hused
  have hle := h.ol_con_le_max
  have hlen := h.length
  have hclose : serverClose s fd = .ok (closed s fd pre post) :=
    serverClose_of_split hfds hnot.1 hnot.2 hi (by omega)
  have htidy : Tidy (closed s fd pre post) := h.closed hfds hpos
  have htwice := not_once_closed h hfds hpos
  have hneg : ¬ fd < 0 := by omega
  rw [Handled, clientHandler, if_neg hneg]
  cases req with
  | failed =>
      refine ⟨fun hc => absurd rfl hc.1, fun _ s' hs' => ?_⟩
      simp only [hclose] at hs'
      obtain rfl := Except.ok.inj hs'
      exact htwice
  | invalid =>
      refine ⟨fun hc => absurd rfl hc.2.1, fun _ s' hs' => ?_⟩
      simp only [hclose] at hs'
      obtain rfl := Except.ok.inj hs'
      exact htwice
  | eof =>
      refine ⟨fun _ => ⟨_, hclose, htidy⟩, fun hno => ?_⟩
      exact absurd ⟨by simp, by simp, fun _ => hfull⟩ hno
  | unsent =>
      refine ⟨fun _ => ⟨_, hclose, htidy⟩, fun hno => ?_⟩
      exact absurd ⟨by simp, by simp, fun _ => hfull⟩ hno
  | sent =>
      refine ⟨fun _ => ⟨s, rfl, h⟩, fun hno => ?_⟩
      exact absurd ⟨by simp, by simp, fun _ => hfull⟩ hno

/-- What the handler does with a connection below `ol_con`. -/
lemma handled (req : Request) (h : Tidy s) (hfd : s.cli_fds[i]? = some fd) (hi : i < s.ol_con)
    (hpos : 0 ≤ fd) : Handled s req fd := by
  by_cases hfull : s.ol_con = maxCliNum
  · exact handled_full req h hpos hfull
  · exact handled_conn req h hfd hi hpos hfull

/-! ### Steps and runs -/

/-- The descriptors fit into the set; and a client that is handled sends a request that can be read
and has a file name, or leaves while the table is not full. -/
def Proper (m : Machine) : Event → Prop
  | .poll _ _ => ∀ fd ∈ m.srv.cli_fds, fd < fdSetSize
  | .visit _ req => ∀ i fd, m.pc = .service i → i < m.srv.ol_con → m.srv.cli_fds[i]? = some fd →
      fd < fdSetSize ∧ (0 ≤ fd → m.srv.rd_set fd = true → ClosesOnce m.srv req)

/-- `main` is somewhere, and the table is tidy. -/
structure Sound (m : Machine) : Prop where
  defined : m.pc ≠ .undefined
  tidy : Tidy m.srv

lemma Sound.ok {m : Machine} (h : Sound m) : Ok m := ⟨h.defined, h.tidy.once⟩

/-- The handler is called for an entry that the set has room for. -/
lemma visit_handle {junk : Bool} {r : Machine × List Empty} (h : Tidy s) (hi : i < s.ol_con)
    (hfd : s.cli_fds[i]? = some fd) (hroom : fd < fdSetSize) (hset : s.fdIsset junk fd = true)
    (hstep : step ⟨s, .service i⟩ (.visit junk req) = some r) :
    ((0 ≤ fd → ClosesOnce s req) → Sound r.1) ∧ (Ok r.1 → 0 ≤ fd → ClosesOnce s req) := by
  obtain ⟨t, ht⟩ : ∃ t, (s.call (.fdIsset fd)).call (.clientHandler fd) = t := ⟨_, rfl⟩
  have htidy : Tidy t := ht ▸ h.of_kept ((Kept.fdIsset s fd).trans (Kept.clientHandler _ fd))
  have hfd' : t.cli_fds[i]? = some fd := by rw [← ht]; exact hfd
  have hi' : i < t.ol_con := by rw [← ht]; exact hi
  have honce : ClosesOnce t req ↔ ClosesOnce s req := by rw [← ht]; exact Iff.rfl
  have hbody : serviceBody (clientHandler fun _ => req) junk (s, i) =
      (clientHandler (fun _ => req) t fd).map fun s' => .inl (s', i + 1) := by
    rw [serviceBody_handle hi hfd hroom hset, ht]
  have hok : ∀ s', clientHandler (fun _ => req) t fd = .ok s' →
      (⟨s', .service (i + 1)⟩, []) = r := by
    intro s' hs'
    simpa [step, hbody, hs', Except.map] using hstep
  constructor
  · intro hc
    obtain ⟨s', hs', htidy'⟩ : ∃ s', clientHandler (fun _ => req) t fd = .ok s' ∧ Tidy s' := by
      by_cases hpos : 0 ≤ fd
      · exact (handled req htidy hfd' hi' hpos).1 (honce.2 (hc hpos))
      · exact clientHandler_neg htidy hfd' (by omega)
    rw [← hok s' hs']
    exact ⟨by simp, htidy'⟩
  · intro hright hpos
    by_contra hno
    rcases hh : clientHandler (fun _ => req) t fd with e | s'
    · have hr : (⟨s, .undefined⟩, []) = r := by simpa [step, hbody, hh, Except.map] using hstep
      exact hright.defined (by rw [← hr])
    · refine (handled req htidy hfd' hi' hpos).2 (fun hc => hno (honce.1 hc)) s' hh ?_
      have honce' := hright.once
      rwa [← hok s' hh] at honce'

/-- The visit of an entry. -/
lemma visit_once {junk : Bool} {r : Machine × List Empty} (h : Tidy s) (hi : i < s.ol_con)
    (hfd : s.cli_fds[i]? = some fd) (hstep : step ⟨s, .service i⟩ (.visit junk req) = some r) :
    (Ok r.1 ↔ fd < fdSetSize ∧ (0 ≤ fd → s.rd_set fd = true → ClosesOnce s req)) ∧
      (fd < fdSetSize ∧ (0 ≤ fd → s.rd_set fd = true → ClosesOnce s req) → Sound r.1) := by
  by_cases hroom : fd < fdSetSize
  · have hisset : 0 ≤ fd → s.fdIsset junk fd = s.rd_set fd := by
      intro hpos
      rw [Server.fdIsset, if_neg (by omega)]
    by_cases hset : s.fdIsset junk fd = true
    · obtain ⟨hgood, hright⟩ := visit_handle h hi hfd hroom hset hstep
      have hsound : fd < fdSetSize ∧ (0 ≤ fd → s.rd_set fd = true → ClosesOnce s req) →
          Sound r.1 := by
        rintro ⟨-, hc⟩
        refine hgood fun hpos => hc hpos ?_
        rw [← hisset hpos, hset]
      exact ⟨⟨fun hok => ⟨hroom, fun hpos _ => hright hok hpos⟩, fun hc => (hsound hc).ok⟩, hsound⟩
    · have hr : (⟨s.call (.fdIsset fd), .service (i + 1)⟩, []) = r := by
        simpa [step, serviceBody_skip hi hfd hroom (by simpa using hset)] using hstep
      have hsound : Sound r.1 := by
        rw [← hr]
        exact ⟨by simp, h.of_kept (Kept.fdIsset s fd)⟩
      refine ⟨iff_of_true hsound.ok ⟨hroom, fun hpos hrd => ?_⟩, fun _ => hsound⟩
      rw [hisset hpos] at hset
      exact absurd hrd hset
  · have hr : (⟨s, .undefined⟩, []) = r := by
      simpa [step, serviceBody_outside hi hfd hroom] using hstep
    refine ⟨iff_of_false (fun hok => hok.defined (by rw [← hr])) fun hc => hroom hc.1,
      fun hc => absurd hc.1 hroom⟩

/-- Polling goes wrong just when the set has no room for a descriptor. -/
lemma poll_once {ready : ℤ → Bool} {conn_fd : Option ℤ} {r : Machine × List Empty} (h : Tidy s)
    (hv : ∀ fd, conn_fd = some fd → 0 ≤ fd ∧ fd ∉ s.conns)
    (hstep : step ⟨s, .poll⟩ (.poll ready conn_fd) = some r) :
    (Ok r.1 ↔ ∀ fd ∈ s.cli_fds, fd < fdSetSize) ∧
      ((∀ fd ∈ s.cli_fds, fd < fdSetSize) → Sound r.1) := by
  by_cases hroom : ∀ fd ∈ s.cli_fds, fd < fdSetSize
  · have hsound : Sound r.1 := by
      cases hquiet : s.quiet ready conn_fd with
      | true =>
          have hr : (⟨{ s with rd_set := fun _ => false }, .poll⟩, []) = r := by
            simpa [step, poll_quiet hroom hquiet] using hstep
          rw [← hr]
          exact ⟨by simp, h.set _⟩
      | false =>
          have hr : (⟨s.takeIn maxCliNum ready conn_fd, .service 0⟩, []) = r := by
            simpa [step, poll_takeIn hroom hquiet] using hstep
          rw [← hr]
          exact ⟨by simp, h.takeIn ready hv⟩
    exact ⟨iff_of_true hsound.ok hroom, fun _ => hsound⟩
  · have hr : (⟨s, .undefined⟩, []) = r := by simpa [step, poll_outside hroom] using hstep
    exact ⟨iff_of_false (fun hok => hok.defined (by rw [← hr])) hroom, fun hr => absurd hr hroom⟩

/-- A step goes right just when it is proper, and then keeps the table tidy. -/
lemma step_once {m : Machine} {e : Event} {r : Machine × List Empty} (h : Sound m)
    (hv : ValidEvent m e) (hstep : step m e = some r) :
    (Ok r.1 ↔ Proper m e) ∧ (Proper m e → Sound r.1) := by
  obtain ⟨s, pc⟩ := m
  have hs : Tidy s := h.tidy
  cases e with
  | poll ready conn_fd =>
      cases pc with
      | service i => simp [step] at hstep
      | undefined => simp [step] at hstep
      | poll => exact poll_once hs hv hstep
  | visit junk req =>
      cases pc with
      | poll => simp [step] at hstep
      | undefined => simp [step] at hstep
      | service i =>
          by_cases hi : (i : ℤ) < s.ol_con
          · have hle := hs.ol_con_le_max
            have hlen := hs.length
            have hin : i < s.cli_fds.length := by omega
            obtain ⟨fd, hfd⟩ : ∃ fd, s.cli_fds[i]? = some fd :=
              ⟨s.cli_fds[i], List.getElem?_eq_getElem hin⟩
            have hproper : Proper ⟨s, .service i⟩ (.visit junk req) ↔
                fd < fdSetSize ∧ (0 ≤ fd → s.rd_set fd = true → ClosesOnce s req) := by
              constructor
              · exact fun hp => hp i fd rfl hi hfd
              · intro hc j x hj _ hx
                obtain rfl : i = j := by simpa using hj
                obtain rfl : fd = x := Option.some.inj (hfd.symm.trans hx)
                exact hc
            rw [hproper]
            exact visit_once hs hi hfd hstep
          · -- the service loop is over
            have hr : (⟨s, .poll⟩, []) = r := by simpa [step, serviceBody_done hi] using hstep
            have hsound : Sound r.1 := by
              rw [← hr]
              exact ⟨by simp, hs⟩
            have hproper : Proper ⟨s, .service i⟩ (.visit junk req) := by
              intro j x hj hlt
              obtain rfl : i = j := by simpa using hj
              exact absurd hlt hi
            exact ⟨iff_of_true hsound.ok hproper, fun _ => hsound⟩

/-- In a run whose `accept` returns descriptors that are not open, each connection is closed
and counted down for at most once throughout, and nothing outside the table or the set is
touched, just when all steps are proper. -/
theorem always_once_iff {es : List Event} {r : Machine × List Empty}
    (hv : Runs.AllMeet step ValidEvent init es) (hrun : Runs.run step init es = some r) :
    Runs.Always step Ok init es ↔ Runs.AllMeet step Proper init es :=
  Runs.always_iff_allMeet_of_invariant (J := Sound) (fun _ h => h.ok)
    (fun _ _ _ h hv hstep => step_once h hv hstep) ⟨by simp [init], tidy_start⟩ hv hrun

/-- A client is served and leaves, and its descriptor is accepted again. -/
def visits : List Event :=
  [.poll (fun _ => false) (some 5), .visit false .sent, .visit false .sent,
    .poll (fun _ => true) none, .visit false .sent, .visit false .sent,
    .poll (fun _ => true) none, .visit false .eof, .visit false .sent,
    .poll (fun _ => false) (some 5)]

theorem always_once_iff_visits : ∃ r, Runs.run step init visits = some r ∧
    (Runs.Always step Ok init visits ↔ Runs.AllMeet step Proper init visits) := by
  have hsome : (Runs.run step init visits).isSome = true := by decide +kernel
  obtain ⟨r, hr⟩ := Option.isSome_iff_exists.1 hsome
  exact ⟨r, hr, always_once_iff (by decide +kernel) hr⟩

/-- A client that is accepted, and sends a request without a file name. -/
def asksNothing : List Event :=
  [.poll (fun _ => false) (some 5), .visit false .sent, .visit false .sent,
    .poll (fun _ => true) none, .visit false .invalid]

/-- Its descriptor is closed twice. -/
theorem not_always_once_asksNothing : Runs.AllMeet step ValidEvent init asksNothing ∧
    ¬ Runs.Always step (fun m => Once m.srv.calls) init asksNothing := by
  refine ⟨by decide +kernel, fun h => ?_⟩
  have htwo : (Runs.run step init asksNothing).map (fun r =>
      (decide (.accept 5 ∈ r.1.srv.calls), (since 5 r.1.srv.calls).count (.close 5))) =
        some (true, 2) := by
    decide +kernel
  obtain ⟨⟨m, os⟩, hrun, hm⟩ := Option.map_eq_some_iff.1 htwo
  obtain ⟨hacc, hcount⟩ : .accept 5 ∈ m.srv.calls ∧ (since 5 m.srv.calls).count (.close 5) = 2 := by
    simpa using hm
  have honce : Once m.srv.calls := h.last hrun
  have hle := (honce 5 hacc).1
  omega

end FileServer

end Select

end DemoClass
