import DemoClass.EchoServer.Replies
import DemoClass.Lib.Runs
import Mathlib.Data.List.Infix
import Mathlib.Data.List.TakeWhile

/-!
# A session over TCP (`02Tcp_loop`)

The server makes a process for every connection, so one client and the process that serves it are
looked at.  Between them there are the bytes that were written and not yet read; a `read` gives any
number of those that are there, up to the size of the buffer, and waits when there are none.

The client sends a line without its last character, and then waits for an answer.  What it prints
is what it has sent, in upper case and in the same order (`replies_in_order`).  But it takes any
part of an answer for all of it, and what is left over can fill its array to the end, where `printf`
finds no NUL; and when there was nothing to send, it waits forever (`session_finishes_iff`).
-/

namespace DemoClass

namespace TcpLoop

open EchoServer Runs

/-- `BUF_SIZE` of the server. -/
def bufSize : ℕ := 4096

/-- The size of the client's array. -/
def lineSize : ℕ := 1024

/-- `toupper` in the C locale. -/
def toupper (c : Byte) : Byte := if 97 ≤ c.toNat ∧ c.toNat ≤ 122 then c - 32 else c

/-- What the client writes of the line in its array, up to the NUL; with nothing there it would
change the byte before the array. -/
def payload (line : List Byte) : Option (List Byte) :=
  let text := line.takeWhile (· ≠ 0)
  if text = [] then none else some text.dropLast

/-- What `printf` prints of the bytes that were read into the array of NULs; it runs past the array
when they fill it. -/
def printed (bytes : List Byte) : Option (List Byte) :=
  str (bytes ++ List.replicate (lineSize - bytes.length) 0)

/-- Where the client is; when it is closed, `buf` was not sent, and when `printf` has run past the
array, nothing is known of it any more. -/
inductive ClientPc where
  | gets
  | write (buf : List Byte)
  | read
  | beyond (bytes : List Byte)
  | closed (buf : List Byte)
deriving DecidableEq

/-- Where `client_handler` is; `buf` is in upper case. -/
inductive ServerPc where
  | read
  | write (buf : List Byte)
  | closed (buf : List Byte)
deriving DecidableEq

/-- What a call comes back with. -/
inductive Answer where
  | done
  | got (n : ℕ)
  | eof
  | interrupted
  | failed
deriving DecidableEq

inductive Action where
  | client (a : Answer)
  | server (a : Answer)
deriving DecidableEq

/-- The client with the input it has still to read, the server, and the bytes on their way. -/
structure State where
  client : ClientPc
  stdin : List Byte
  toServer : List Byte
  server : ServerPc
  toClient : List Byte
deriving DecidableEq

def ClientPc.isClosed : ClientPc → Bool
  | .closed _ => true
  | _ => false

def ServerPc.isClosed : ServerPc → Bool
  | .closed _ => true
  | _ => false

/-- `main` of the client, with what it prints. -/
def client (s : State) (a : Answer) : Option (State × List (List Byte)) :=
  match s.client, a with
  | .gets, .done =>
    match fgets (lineSize - 1) s.stdin with
    | none => some ({ s with client := .closed [] }, [])
    | some (line, rest) =>
      (payload line).map fun buf => ({ s with client := .write buf, stdin := rest }, [])
  | .write buf, .done => some ({ s with client := .read, toServer := s.toServer ++ buf }, [])
  -- `SIGPIPE`
  | .write buf, .failed =>
    if s.server.isClosed then some ({ s with client := .closed buf }, []) else none
  | .read, .got n =>
    if 0 < n ∧ n ≤ lineSize ∧ n ≤ s.toClient.length then
      match printed (s.toClient.take n) with
      | some text => some ({ s with client := .gets, toClient := s.toClient.drop n }, [text])
      | none => some ({ s with
          client := .beyond (s.toClient.take n), toClient := s.toClient.drop n }, [])
    else none
  | .read, .eof =>
    if s.server.isClosed ∧ s.toClient = [] then some ({ s with client := .closed [] }, [])
    else none
  | .read, .failed =>
    if s.server.isClosed then some ({ s with client := .closed [] }, []) else none
  | _, _ => none

/-- `client_handler` of the server. -/
def server (s : State) (a : Answer) : Option State :=
  match s.server, a with
  | .read, .got n =>
    if 0 < n ∧ n ≤ bufSize - 1 ∧ n ≤ s.toServer.length then
      some { s with
        server := .write ((s.toServer.take n).map toupper)
        toServer := s.toServer.drop n }
    else none
  | .read, .eof =>
    if s.client.isClosed ∧ s.toServer = [] then some { s with server := .closed [] } else none
  | .read, .interrupted => some s
  | .read, .failed => some { s with server := .closed [] }
  | .write buf, .done => some { s with server := .read, toClient := s.toClient ++ buf }
  | .write buf, .failed =>
    if s.client.isClosed then some { s with server := .closed buf } else none
  | _, _ => none

/-- A step of one of the two. -/
def step (s : State) : Action → Option (State × List (List Byte))
  | .client a => client s a
  | .server a => (server s a).map fun s => (s, [])

/-- The client is connected. -/
def start (stdin : List Byte) : State where
  client := .gets
  stdin := stdin
  toServer := []
  server := .read
  toClient := []

/-! ### What gets through -/

/-- The strings that the client reads. -/
def lines (stdin : List Byte) : List (List Byte) :=
  match _h : fgets (lineSize - 1) stdin with
  | none => []
  | some (line, rest) => line.takeWhile (· ≠ 0) :: lines rest
termination_by stdin.length
decreasing_by exact fgets_length_lt (n := lineSize - 1) (by decide) ‹_›

/-- The bytes that the client sends for an input. -/
def sent (stdin : List Byte) : List Byte := (lines stdin).flatMap List.dropLast

/-- What the client has still to write. -/
def ClientPc.buf : ClientPc → List Byte
  | .write buf | .closed buf => buf
  | .gets | .read | .beyond _ => []

/-- What the client has read and not printed. -/
def ClientPc.taken : ClientPc → List Byte
  | .beyond bytes => bytes
  | _ => []

/-- What the server has still to write. -/
def ServerPc.buf : ServerPc → List Byte
  | .write buf | .closed buf => buf
  | .read => []

/-- What is on its way back to the client, or will be. -/
def State.flight (s : State) : List Byte :=
  s.toClient ++ s.server.buf ++ s.toServer.map toupper

variable {s s' : State} {a : Action} {o : List (List Byte)} {line stdin rest buf : List Byte}

lemma lines_of_none (h : fgets (lineSize - 1) stdin = none) : lines stdin = [] := by
  rw [lines]
  split
  · rfl
  · next heq =>
    rw [h] at heq
    cases heq

lemma lines_of_some (h : fgets (lineSize - 1) stdin = some (line, rest)) :
    lines stdin = line.takeWhile (· ≠ 0) :: lines rest := by
  rw [lines]
  split
  · next heq =>
    rw [h] at heq
    cases heq
  · next heq =>
    rw [h] at heq
    obtain ⟨rfl, rfl⟩ := Prod.mk.inj (Option.some.inj heq)
    rfl

lemma payload_eq_some (h : payload line = some buf) :
    line.takeWhile (· ≠ 0) ≠ [] ∧ (line.takeWhile (· ≠ 0)).dropLast = buf := by
  simp only [payload, Option.ite_none_left_eq_some, Option.some.injEq] at h
  exact h

/-- What was read and not printed, is on its way, and has still to be sent. -/
def State.ahead (s : State) : List Byte :=
  s.client.taken ++ s.flight ++ (s.client.buf ++ sent s.stdin).map toupper

lemma toupper_eq_zero {c : Byte} : toupper c = 0 → c = 0 := by
  revert c
  decide

lemma zero_notMem_lines {text : List Byte} (h : text ∈ lines stdin) : 0 ∉ text := by
  induction stdin using lines.induct with
  | case1 stdin hf =>
      rw [lines_of_none hf] at h
      cases h
  | case2 stdin line rest hf ih =>
      rw [lines_of_some hf] at h
      rcases List.mem_cons.1 h with rfl | h
      · exact fun hzero => by simpa using List.mem_takeWhile_imp hzero
      · exact ih h

/-- No NUL is sent. -/
lemma zero_notMem_sent (stdin : List Byte) : 0 ∉ (sent stdin).map toupper := by
  intro hmem
  obtain ⟨c, hc, hzero⟩ := List.mem_map.1 hmem
  obtain rfl := toupper_eq_zero hzero
  obtain ⟨text, htext, hc⟩ := List.mem_flatMap.1 hc
  exact zero_notMem_lines htext (List.mem_of_mem_dropLast hc)

lemma str_of_zero_notMem {mem : List Byte} (h : 0 ∉ mem) : str mem = none := by
  induction mem with
  | nil => rfl
  | cons c mem ih =>
      rw [List.mem_cons, not_or] at h
      rw [str, if_neg (Ne.symm h.1), ih h.2, Option.map_none]

/-- Bytes without a NUL are printed as they are, unless they fill the array. -/
lemma printed_eq {bytes : List Byte} (h : 0 ∉ bytes) :
    printed bytes = if bytes.length < lineSize then some bytes else none := by
  rw [printed]
  split_ifs with hlt
  · obtain ⟨k, hk⟩ := Nat.exists_eq_succ_of_ne_zero (Nat.sub_ne_zero_of_lt hlt)
    rw [hk, List.replicate_succ, str_append_zero h]
  · rw [Nat.sub_eq_zero_of_le (Nat.le_of_not_lt hlt), List.replicate_zero, List.append_nil,
      str_of_zero_notMem h]

lemma zero_notMem_take (h : 0 ∉ s.ahead) (n : ℕ) : 0 ∉ s.toClient.take n := by
  refine fun hmem => h ?_
  simp only [State.ahead, State.flight, List.mem_append]
  exact Or.inl (Or.inr (Or.inl (Or.inl (List.mem_of_mem_take hmem))))

/-- What a step of the client prints was in front. -/
lemma books_of_client {b : Answer} (h : 0 ∉ s.ahead) (hs : client s b = some (s', o)) :
    o.flatten ++ s'.ahead = s.ahead ∧ ∀ r ∈ o, r ≠ [] ∧ r.length < lineSize := by
  unfold client at hs
  split at hs
  · next hpc =>
    cases hf : fgets (lineSize - 1) s.stdin with
    | none =>
        rw [hf] at hs
        obtain ⟨rfl, rfl⟩ := Prod.mk.inj (Option.some.inj hs)
        simp [State.ahead, State.flight, hpc, ClientPc.buf, ClientPc.taken]
    | some r =>
        obtain ⟨line, rest⟩ := r
        rw [hf] at hs
        obtain ⟨buf, hbuf, he⟩ := Option.map_eq_some_iff.1 hs
        obtain ⟨rfl, rfl⟩ := Prod.mk.inj he
        obtain ⟨-, hlast⟩ := payload_eq_some hbuf
        have hsent : sent s.stdin = buf ++ sent rest := by
          rw [sent, lines_of_some hf, List.flatMap_cons, hlast]
          rfl
        refine ⟨?_, by simp⟩
        simp [State.ahead, State.flight, hpc, ClientPc.buf, ClientPc.taken, hsent]
  · next hpc =>
    obtain ⟨rfl, rfl⟩ := Prod.mk.inj (Option.some.inj hs)
    simp [State.ahead, State.flight, hpc, ClientPc.buf, ClientPc.taken]
  · next hpc =>
    split_ifs at hs
    obtain ⟨rfl, rfl⟩ := Prod.mk.inj (Option.some.inj hs)
    simp [State.ahead, State.flight, hpc, ClientPc.buf, ClientPc.taken]
  · next n hpc =>
    -- the bytes in front are read
    split_ifs at hs with hn
    have hsplit : s.toClient.take n ++ s.toClient.drop n = s.toClient := List.take_append_drop _ _
    have hlen : (s.toClient.take n).length = n := List.length_take_of_le hn.2.2
    rw [printed_eq (zero_notMem_take h n), hlen] at hs
    split_ifs at hs with hlt
    · obtain ⟨rfl, rfl⟩ := Prod.mk.inj (Option.some.inj hs)
      constructor
      · simp only [State.ahead, State.flight, hpc, ClientPc.buf, ClientPc.taken,
          List.flatten_singleton, List.nil_append, ← List.append_assoc, hsplit]
      · intro r hr
        obtain rfl := List.mem_singleton.1 hr
        rw [← List.length_pos_iff, hlen]
        exact ⟨hn.1, hlt⟩
    · obtain ⟨rfl, rfl⟩ := Prod.mk.inj (Option.some.inj hs)
      refine ⟨?_, by simp⟩
      simp only [State.ahead, State.flight, hpc, ClientPc.buf, ClientPc.taken, List.flatten_nil,
        List.nil_append, ← List.append_assoc, hsplit]
  · next hpc =>
    split_ifs at hs
    obtain ⟨rfl, rfl⟩ := Prod.mk.inj (Option.some.inj hs)
    simp [State.ahead, State.flight, hpc, ClientPc.buf, ClientPc.taken]
  · next hpc =>
    split_ifs at hs
    obtain ⟨rfl, rfl⟩ := Prod.mk.inj (Option.some.inj hs)
    simp [State.ahead, State.flight, hpc, ClientPc.buf, ClientPc.taken]
  · cases hs

/-- What a step of the server leaves as it is. -/
structure Kept (s s' : State) : Prop where
  flight : s'.flight = s.flight
  client : s'.client = s.client
  stdin : s'.stdin = s.stdin

/-- A step of the server moves bytes on. -/
lemma kept_of_server {b : Answer} (hs : server s b = some s') :
    Kept s s' ∧ s.server.isClosed = false := by
  unfold server at hs
  split at hs
  · next n hpc =>
    split_ifs at hs
    obtain rfl := Option.some.inj hs
    refine ⟨⟨?_, rfl, rfl⟩, by simp [hpc, ServerPc.isClosed]⟩
    simp only [State.flight, hpc, ServerPc.buf, List.append_nil, List.append_assoc]
    rw [← List.map_append, List.take_append_drop]
  · next hpc =>
    split_ifs at hs
    obtain rfl := Option.some.inj hs
    exact ⟨⟨by simp [State.flight, hpc, ServerPc.buf], rfl, rfl⟩, by simp [hpc, ServerPc.isClosed]⟩
  · next hpc =>
    obtain rfl := Option.some.inj hs
    exact ⟨⟨rfl, rfl, rfl⟩, by simp [hpc, ServerPc.isClosed]⟩
  · next hpc =>
    obtain rfl := Option.some.inj hs
    exact ⟨⟨by simp [State.flight, hpc, ServerPc.buf], rfl, rfl⟩, by simp [hpc, ServerPc.isClosed]⟩
  · next hpc =>
    obtain rfl := Option.some.inj hs
    exact ⟨⟨by simp [State.flight, hpc, ServerPc.buf], rfl, rfl⟩, by simp [hpc, ServerPc.isClosed]⟩
  · next hpc =>
    split_ifs at hs
    obtain rfl := Option.some.inj hs
    exact ⟨⟨by simp [State.flight, hpc, ServerPc.buf], rfl, rfl⟩, by simp [hpc, ServerPc.isClosed]⟩
  · cases hs

/-- What is printed one after the other. -/
lemma books_of_step (h : 0 ∉ s.ahead) (hs : step s a = some (s', o)) :
    o.flatten ++ s'.ahead = s.ahead ∧ ∀ r ∈ o, r ≠ [] ∧ r.length < lineSize := by
  cases a with
  | client b => exact books_of_client h hs
  | server b =>
      obtain ⟨s'', hserver, he⟩ := Option.map_eq_some_iff.1 hs
      obtain ⟨rfl, rfl⟩ := Prod.mk.inj he
      obtain ⟨hkept, -⟩ := kept_of_server hserver
      rw [State.ahead, hkept.flight, hkept.client, hkept.stdin]
      exact ⟨rfl, by simp⟩

lemma zero_notMem_ahead_of_step (h : 0 ∉ s.ahead) (hs : step s a = some (s', o)) :
    0 ∉ s'.ahead := by
  rw [← (books_of_step h hs).1] at h
  exact fun hmem => h (List.mem_append_right _ hmem)

lemma zero_notMem_ahead_start (stdin : List Byte) : 0 ∉ (start stdin).ahead := by
  have h := zero_notMem_sent stdin
  simpa [State.ahead, State.flight, start, ClientPc.taken, ClientPc.buf, ServerPc.buf] using h

/-! ### What is left over -/

/-- When the client reads one byte of every answer, what is left over fills its array in the
end.  A string is sent without its last character, and so many bytes are left over before it. -/
def Overruns : ℕ → List (List Byte) → Prop
  | _, [] => False
  | left, text :: texts =>
    text ≠ [] ∧ (lineSize ≤ left + (text.length - 1) ∨
      0 < left + (text.length - 1) ∧ Overruns (left + (text.length - 1) - 1) texts)

variable {texts : List (List Byte)} {back : List Byte}

lemma Overruns.mono {x y : ℕ} (hxy : x ≤ y) (h : Overruns x texts) : Overruns y texts := by
  induction texts generalizing x y with
  | nil => exact h
  | cons text texts ih =>
      obtain ⟨hne, hfull | ⟨hpos, hrest⟩⟩ := h
      · exact ⟨hne, Or.inl (by omega)⟩
      · exact ⟨hne, Or.inr ⟨by omega, ih (by omega) hrest⟩⟩

/-- With a character to send in every string, one byte of each is read. -/
lemma overruns_iff {x : ℕ} (hx : x < lineSize - 1) (h : ∀ text ∈ texts, 2 ≤ text.length) :
    Overruns x texts ↔ lineSize - 1 ≤ x + (texts.map fun text => text.length - 2).sum := by
  have hsize : lineSize = 1024 := rfl
  induction texts generalizing x with
  | nil =>
      refine iff_of_false id ?_
      rw [List.map_nil, List.sum_nil]
      omega
  | cons text texts ih =>
      have htext := h text List.mem_cons_self
      have hne : text ≠ [] := List.ne_nil_of_length_pos (by omega)
      rw [Overruns, List.map_cons, List.sum_cons]
      by_cases hfull : lineSize ≤ x + (text.length - 1)
      · exact iff_of_true ⟨hne, Or.inl hfull⟩ (by omega)
      · have hrest := ih (x := x + (text.length - 1) - 1) (by omega)
          fun t ht => h t (List.mem_cons_of_mem _ ht)
        constructor
        · rintro ⟨-, hle | ⟨-, hover⟩⟩
          · omega
          · have hle := hrest.1 hover
            omega
        · intro hle
          exact ⟨hne, Or.inr ⟨by omega, hrest.2 (by omega)⟩⟩

/-- There is room in the array for whatever the client reads. -/
def Fits (s : State) : Prop :=
  match s.client with
  | .gets => ¬ Overruns s.flight.length (lines s.stdin)
  | .write buf => s.flight.length + buf.length < lineSize ∧ (0 < s.flight.length + buf.length →
      ¬ Overruns (s.flight.length + buf.length - 1) (lines s.stdin))
  | .read => s.flight.length < lineSize ∧ (0 < s.flight.length →
      ¬ Overruns (s.flight.length - 1) (lines s.stdin))
  | .beyond _ => False
  | .closed _ => True

lemma length_toClient_le (s : State) : s.toClient.length ≤ s.flight.length := by
  rw [State.flight, List.append_assoc, List.length_append]
  exact Nat.le_add_right _ _

lemma Fits.of_client (h : Fits s) (hzero : 0 ∉ s.ahead) {b : Answer}
    (hs : client s b = some (s', o)) : Fits s' := by
  unfold client at hs
  split at hs
  · next hpc =>
    cases hf : fgets (lineSize - 1) s.stdin with
    | none =>
        rw [hf] at hs
        obtain ⟨rfl, -⟩ := Prod.mk.inj (Option.some.inj hs)
        trivial
    | some r =>
        obtain ⟨line, rest⟩ := r
        rw [hf] at hs
        obtain ⟨buf, hbuf, he⟩ := Option.map_eq_some_iff.1 hs
        obtain ⟨rfl, -⟩ := Prod.mk.inj he
        obtain ⟨hne, hlast⟩ := payload_eq_some hbuf
        have hlen := congrArg List.length hlast
        rw [List.length_dropLast] at hlen
        rw [Fits, hpc] at h
        simp only [lines_of_some hf, Overruns, hlen, not_and, not_or, Nat.not_le] at h
        exact h hne
  · next buf hpc =>
    -- what is sent is on its way
    obtain ⟨rfl, -⟩ := Prod.mk.inj (Option.some.inj hs)
    rw [Fits, hpc] at h
    have hlen : ({ s with client := .read, toServer := s.toServer ++ buf } : State).flight.length =
        s.flight.length + buf.length := by
      simp only [State.flight, List.map_append, List.length_append, List.length_map]
      omega
    simp only [Fits, hlen]
    exact h
  · split_ifs at hs
    obtain ⟨rfl, -⟩ := Prod.mk.inj (Option.some.inj hs)
    trivial
  · next n hpc =>
    -- one byte at least is read, and the array is not filled
    split_ifs at hs with hn
    rw [Fits, hpc] at h
    obtain ⟨hroom, hnext⟩ := h
    have hle := length_toClient_le s
    rw [printed_eq (zero_notMem_take hzero n), if_pos (by rw [List.length_take]; omega)] at hs
    obtain ⟨rfl, -⟩ := Prod.mk.inj (Option.some.inj hs)
    have hlen : ({ s with client := .gets, toClient := s.toClient.drop n } : State).flight.length =
        s.flight.length - n := by
      simp only [State.flight, List.length_append, List.length_drop, List.length_map]
      omega
    simp only [Fits, hlen]
    exact fun hover => hnext (by omega) (hover.mono (by omega))
  · split_ifs at hs
    obtain ⟨rfl, -⟩ := Prod.mk.inj (Option.some.inj hs)
    trivial
  · split_ifs at hs
    obtain ⟨rfl, -⟩ := Prod.mk.inj (Option.some.inj hs)
    trivial
  · cases hs

lemma Fits.of_step (h : Fits s) (hzero : 0 ∉ s.ahead) (hs : step s a = some (s', o)) : Fits s' := by
  cases a with
  | client b => exact h.of_client hzero hs
  | server b =>
      obtain ⟨s'', hserver, he⟩ := Option.map_eq_some_iff.1 hs
      obtain ⟨rfl, -⟩ := Prod.mk.inj he
      obtain ⟨hkept, -⟩ := kept_of_server hserver
      rw [Fits, hkept.client, hkept.flight, hkept.stdin]
      exact h

/-- No NUL is on its way, and there is room for all that is. -/
structure Room (s : State) : Prop where
  zero_notMem : 0 ∉ s.ahead
  fits : Fits s

lemma room_start (h : ¬ Overruns 0 (lines stdin)) : Room (start stdin) :=
  ⟨zero_notMem_ahead_start stdin, h⟩

lemma Room.of_step (h : Room s) (hs : step s a = some (s', o)) : Room s' :=
  ⟨zero_notMem_ahead_of_step h.zero_notMem hs, h.fits.of_step h.zero_notMem hs⟩

lemma Room.of_reaches (h : Room s) (hreach : Reaches step s s') : Room s' :=
  hreach.of_invariant (fun _ _ _ _ h hs => h.of_step hs) h

/-! ### Answers one after the other -/

/-- What is sent comes back behind what is there. -/
lemma reaches_answer (rest back : List Byte) (hlen : buf.length < lineSize) :
    Reaches step ⟨.write buf, rest, [], .read, back⟩
      ⟨.read, rest, [], .read, back ++ buf.map toupper⟩ := by
  have hle : buf.length ≤ bufSize - 1 := by
    have hsize : bufSize = 4096 := rfl
    have hline : lineSize = 1024 := rfl
    omega
  by_cases hnil : buf = []
  · subst hnil
    refine ⟨[.client .done], [], ?_⟩
    simp [run, step, client]
  · have hpos : 0 < buf.length := List.length_pos_of_ne_nil hnil
    have htake : (buf.map toupper).take buf.length = buf.map toupper :=
      List.take_of_length_le (by rw [List.length_map])
    refine ⟨[.client .done, .server (.got buf.length), .server .done], [], ?_⟩
    simp [run, step, client, server, hpos, hle, htake]

/-- The client reads so much of what is there, and its array has room. -/
lemma reaches_read (rest : List Byte) {n : ℕ} (hpos : 0 < n) (hlt : n < lineSize)
    (hle : n ≤ back.length) (hzero : 0 ∉ back) :
    Reaches step ⟨.read, rest, [], .read, back⟩ ⟨.gets, rest, [], .read, back.drop n⟩ := by
  refine ⟨[.client (.got n)], [back.take n], ?_⟩
  have hprinted : printed (back.take n) = some (back.take n) := by
    rw [printed_eq fun hmem => hzero (List.mem_of_mem_take hmem), List.length_take_of_le hle,
      if_pos hlt]
  simp [run, step, client, hpos, hlt.le, hle, hprinted]

/-- The client fills its array. -/
lemma reaches_beyond (rest : List Byte) (hle : lineSize ≤ back.length) (hzero : 0 ∉ back) :
    Reaches step ⟨.read, rest, [], .read, back⟩
      ⟨.beyond (back.take lineSize), rest, [], .read, back.drop lineSize⟩ := by
  refine ⟨[.client (.got lineSize)], [], ?_⟩
  have hprinted : printed (back.take lineSize) = none := by
    rw [printed_eq fun hmem => hzero (List.mem_of_mem_take hmem), List.length_take_of_le hle,
      if_neg (lt_irrefl _)]
  have hpos : 0 < lineSize := by decide
  simp [run, step, client, hle, hprinted, hpos]

/-- The client writes the next line. -/
lemma reaches_gets (back : List Byte) (hf : fgets (lineSize - 1) stdin = some (line, rest))
    (hne : line.takeWhile (· ≠ 0) ≠ []) :
    Reaches step ⟨.gets, stdin, [], .read, back⟩
      ⟨.write (line.takeWhile (· ≠ 0)).dropLast, rest, [], .read, back⟩ := by
  refine ⟨[.client .done], [], ?_⟩
  have hpayload : payload line = some (line.takeWhile (· ≠ 0)).dropLast := if_neg hne
  simp [run, step, client, hf, hpayload]

lemma length_payload_lt (hf : fgets (lineSize - 1) stdin = some (line, rest)) :
    (line.takeWhile (· ≠ 0)).dropLast.length < lineSize := by
  have hle := (List.takeWhile_prefix (fun c : Byte => decide (c ≠ 0)) (l := line)).length_le
  have hline := fgets_length hf
  have hsize : lineSize = 1024 := rfl
  rw [List.length_dropLast]
  omega

lemma zero_notMem_payload (hf : fgets (lineSize - 1) stdin = some (line, rest)) :
    0 ∉ ((line.takeWhile (· ≠ 0)).dropLast).map toupper := by
  intro hmem
  obtain ⟨c, hc, hzero⟩ := List.mem_map.1 hmem
  obtain rfl := toupper_eq_zero hzero
  have hmem : line.takeWhile (· ≠ 0) ∈ lines stdin := by
    rw [lines_of_some hf]
    exact List.mem_cons_self
  exact zero_notMem_lines hmem (List.mem_of_mem_dropLast hc)

/-- One byte of every answer is read, until the array is filled. -/
lemma exists_beyond (h : Overruns back.length (lines stdin)) (hzero : 0 ∉ back) :
    ∃ bytes rest back', Reaches step ⟨.gets, stdin, [], .read, back⟩
      ⟨.beyond bytes, rest, [], .read, back'⟩ := by
  induction stdin using lines.induct generalizing back with
  | case1 stdin hf =>
      rw [lines_of_none hf] at h
      exact h.elim
  | case2 stdin line rest hf ih =>
      rw [lines_of_some hf] at h
      obtain ⟨hne, hover⟩ := h
      let buf := (line.takeWhile (· ≠ 0)).dropLast
      have hread : Reaches step ⟨.gets, stdin, [], .read, back⟩
          ⟨.read, rest, [], .read, back ++ buf.map toupper⟩ :=
        (reaches_gets back hf hne).trans (reaches_answer rest back (length_payload_lt hf))
      have hlen : (back ++ buf.map toupper).length =
          back.length + ((line.takeWhile (· ≠ 0)).length - 1) := by
        rw [List.length_append, List.length_map, List.length_dropLast]
      have hzero' : 0 ∉ back ++ buf.map toupper := by
        rw [List.mem_append, not_or]
        exact ⟨hzero, zero_notMem_payload hf⟩
      rw [← hlen] at hover
      by_cases hfull : lineSize ≤ (back ++ buf.map toupper).length
      · exact ⟨_, _, _, hread.trans (reaches_beyond rest hfull hzero')⟩
      · obtain ⟨hpos, hrest⟩ := hover.resolve_left hfull
        rw [← List.length_drop] at hrest
        obtain ⟨bytes, rest', back', hreach⟩ :=
          ih hrest fun hmem => hzero' (List.mem_of_mem_drop hmem)
        have hone : 1 < lineSize := by decide
        have hall := hread.trans (reaches_read rest Nat.one_pos hone hpos hzero')
        exact ⟨bytes, rest', back', hall.trans hreach⟩

/-- **Every byte comes back once**, in upper case and in its order.  Whatever the input is, in any
order of the steps, with any numbers of bytes that a `read` gives, and with calls that fail: what
the client has printed, then what is in its array when `printf` runs past it, then what is on its
way, then what it has still to send, is what it sends for its input.  It never prints nothing.  And
`printf` can run past the array exactly if the answers of which one byte is read overrun it. -/
theorem replies_in_order (stdin : List Byte) :
    (∀ as s os, run step (start stdin) as = some (s, os) →
      os.flatten ++ s.client.taken ++ s.flight ++ (s.client.buf ++ sent s.stdin).map toupper =
        (sent stdin).map toupper ∧ ∀ r ∈ os, r ≠ [] ∧ r.length < lineSize) ∧
    ((∃ s bytes, Reaches step (start stdin) s ∧ s.client = .beyond bytes) ↔
      Overruns 0 (lines stdin)) := by
  refine ⟨fun as s os hrun => ?_, ?_, fun hover => ?_⟩
  · have hbooks := run_books (I := fun s => 0 ∉ s.ahead) (f := fun _ _ => []) (g := State.ahead)
      List.flatten_nil (fun _ _ => List.flatten_append)
      (fun s a s' o h hs => ⟨zero_notMem_ahead_of_step h hs, by
        rw [List.append_nil]
        exact (books_of_step h hs).1⟩) (zero_notMem_ahead_start stdin) hrun
    rw [logged_eq_nil, List.append_nil] at hbooks
    refine ⟨?_, (run_of_invariant (I := fun s => 0 ∉ s.ahead) (fun s a s' o h _ hs =>
      ⟨zero_notMem_ahead_of_step h hs, (books_of_step h hs).2⟩) (zero_notMem_ahead_start stdin)
      (allMeet_true as _) hrun).2⟩
    simp only [List.append_assoc] at hbooks ⊢
    simpa [State.ahead, State.flight, start, ClientPc.taken, ClientPc.buf, ServerPc.buf]
      using hbooks
  · rintro ⟨s, bytes, hreach, hpc⟩
    by_contra hover
    have hroom := (room_start hover).of_reaches hreach
    have hfits := hroom.fits
    rwa [Fits, hpc] at hfits
  · have hover₀ : Overruns (List.length ([] : List UInt8)) (lines stdin) := hover
    obtain ⟨bytes, rest, back, hreach⟩ := exists_beyond hover₀ List.not_mem_nil
    exact ⟨_, bytes, hreach, rfl⟩

/-- Of the line `ab` both bytes are read by the server, and one comes back. -/
theorem replies_in_order_ab : ∃ s,
    run step (start [97, 98, 10]) [.client .done, .client .done, .server (.got 1), .server .done,
      .server (.got 1), .client (.got 1)] = some (s, [[65]]) ∧
    [65] ++ s.client.taken ++ s.flight ++ (s.client.buf ++ sent s.stdin).map toupper =
      (sent [97, 98, 10]).map toupper := by
  refine ⟨_, rfl, ?_⟩
  exact ((replies_in_order [97, 98, 10]).1 [.client .done, .client .done, .server (.got 1),
    .server .done, .server (.got 1), .client (.got 1)] _ [[65]] rfl).1

/-! ### Getting to the end -/

def Answer.fails : Answer → Bool
  | .interrupted | .failed => true
  | _ => false

def Action.fails : Action → Bool
  | .client a | .server a => a.fails

/-- The steps in which no call fails. -/
def calls (s : State) (a : Action) : Option (State × List (List Byte)) :=
  if a.fails then none else step s a

/-- Both have ended. -/
def State.Finished (s : State) : Prop := s.client.isClosed = true ∧ s.server.isClosed = true

/-- Whoever waits for an answer has sent something. -/
structure Ok (s : State) : Prop where
  lines : ∀ text ∈ lines s.stdin, 2 ≤ text.length
  write : ∀ buf, s.client = .write buf → buf ≠ []
  read : s.client = .read → s.server.isClosed = false → s.flight ≠ []

def ClientPc.due : ClientPc → ℕ
  | .gets => 1
  | .write buf => 6 * buf.length + 3
  | .read => 2
  | .beyond _ | .closed _ => 0

def ServerPc.due : ServerPc → ℕ
  | .read => 1
  | .write buf => 3 * buf.length + 2
  | .closed _ => 0

/-- What is left to be done; a byte costs less and less on its way. -/
def State.due (s : State) : ℕ :=
  7 * s.stdin.length + s.client.due + 5 * s.toServer.length + s.server.due + 2 * s.toClient.length

lemma ok_start (h : ∀ text ∈ lines stdin, 2 ≤ text.length) : Ok (start stdin) where
  lines := h
  write := by simp [start]
  read := by simp [start]

/-- A line with a character to send. -/
lemma exists_payload (h : 2 ≤ (line.takeWhile (· ≠ 0)).length) :
    ∃ buf, payload line = some buf ∧ 0 < buf.length ∧ buf.length < line.length := by
  have hne : line.takeWhile (· ≠ 0) ≠ [] := List.ne_nil_of_length_pos (by omega)
  have hpayload : payload line = some (line.takeWhile (· ≠ 0)).dropLast := if_neg hne
  refine ⟨_, hpayload, ?_⟩
  have hle := (List.takeWhile_prefix (fun c : Byte => decide (c ≠ 0)) (l := line)).length_le
  rw [List.length_dropLast]
  omega

namespace Ok

lemma of_client (h : Ok s) {b : Answer} (hs : client s b = some (s', o)) : Ok s' := by
  unfold client at hs
  split at hs
  · next hpc =>
    cases hf : fgets (lineSize - 1) s.stdin with
    | none =>
        rw [hf] at hs
        obtain ⟨rfl, -⟩ := Prod.mk.inj (Option.some.inj hs)
        exact ⟨h.lines, by simp, by simp⟩
    | some r =>
        obtain ⟨line, rest⟩ := r
        rw [hf] at hs
        obtain ⟨buf, hbuf, he⟩ := Option.map_eq_some_iff.1 hs
        obtain ⟨rfl, -⟩ := Prod.mk.inj he
        have hlines := h.lines
        rw [lines_of_some hf] at hlines
        obtain ⟨buf', hbuf', hpos, -⟩ := exists_payload (hlines _ List.mem_cons_self)
        obtain rfl := Option.some.inj (hbuf.symm.trans hbuf')
        refine ⟨fun text ht => hlines text (List.mem_cons_of_mem _ ht), fun buf' he' => ?_, by simp⟩
        obtain rfl := ClientPc.write.inj he'
        exact List.ne_nil_of_length_pos hpos
  · next buf hpc =>
    -- what is sent is on its way
    obtain ⟨rfl, -⟩ := Prod.mk.inj (Option.some.inj hs)
    refine ⟨h.lines, by simp, fun _ _ hnil => ?_⟩
    simp only [State.flight, List.map_append, List.append_eq_nil_iff, List.map_eq_nil_iff] at hnil
    exact h.write buf hpc hnil.2.2
  · split_ifs at hs
    obtain ⟨rfl, -⟩ := Prod.mk.inj (Option.some.inj hs)
    exact ⟨h.lines, by simp, by simp⟩
  · -- whatever was read
    split_ifs at hs
    split at hs
    · obtain ⟨rfl, -⟩ := Prod.mk.inj (Option.some.inj hs)
      exact ⟨h.lines, by simp, by simp⟩
    · obtain ⟨rfl, -⟩ := Prod.mk.inj (Option.some.inj hs)
      exact ⟨h.lines, by simp, by simp⟩
  · split_ifs at hs
    obtain ⟨rfl, -⟩ := Prod.mk.inj (Option.some.inj hs)
    exact ⟨h.lines, by simp, by simp⟩
  · split_ifs at hs
    obtain ⟨rfl, -⟩ := Prod.mk.inj (Option.some.inj hs)
    exact ⟨h.lines, by simp, by simp⟩
  · cases hs

lemma of_step (h : Ok s) (hs : step s a = some (s', o)) : Ok s' := by
  cases a with
  | client b => exact h.of_client hs
  | server b =>
      obtain ⟨s'', hserver, he⟩ := Option.map_eq_some_iff.1 hs
      obtain ⟨rfl, -⟩ := Prod.mk.inj he
      obtain ⟨hkept, hopen⟩ := kept_of_server hserver
      refine ⟨by rw [hkept.stdin]; exact h.lines, by rw [hkept.client]; exact h.write, ?_⟩
      rw [hkept.client, hkept.flight]
      exact fun hread _ => h.read hread hopen

/-- The client goes on, when there is something to read or the server is closed. -/
lemma exists_client (h : Ok s) (hroom : Room s) (hopen : s.client.isClosed = false)
    (hread : s.client = .read → s.toClient = [] → s.server.isClosed = true) :
    ∃ a s' o, calls s a = some (s', o) ∧ s'.due < s.due := by
  cases hpc : s.client with
  | gets =>
      cases hf : fgets (lineSize - 1) s.stdin with
      | none =>
          refine ⟨.client .done, { s with client := .closed [] }, [], ?_, ?_⟩
          · simp only [calls, Action.fails, Answer.fails, step, client, hpc, hf]
            rfl
          · simp only [State.due, hpc, ClientPc.due]
            omega
      | some r =>
          obtain ⟨line, rest⟩ := r
          have hlines := h.lines
          rw [lines_of_some hf] at hlines
          obtain ⟨buf, hbuf, -, hlt⟩ := exists_payload (hlines _ List.mem_cons_self)
          obtain ⟨hsplit, -⟩ := fgets_split (by decide) hf
          have hlen := congrArg List.length hsplit
          rw [List.length_append] at hlen
          refine ⟨.client .done, { s with client := .write buf, stdin := rest }, [], ?_, ?_⟩
          · simp only [calls, Action.fails, Answer.fails, step, client, hpc, hf, hbuf]
            rfl
          · simp only [State.due, hpc, ClientPc.due]
            omega
  | write buf =>
      refine ⟨.client .done, { s with client := .read, toServer := s.toServer ++ buf }, [], ?_, ?_⟩
      · simp only [calls, Action.fails, Answer.fails, step, client, hpc]
        rfl
      · simp only [State.due, hpc, ClientPc.due, List.length_append]
        omega
  | read =>
      by_cases hnil : s.toClient = []
      · refine ⟨.client .eof, { s with client := .closed [] }, [], ?_, ?_⟩
        · simp only [calls, Action.fails, Answer.fails, step, client, hpc]
          rw [if_neg (by simp), if_pos ⟨hread hpc hnil, hnil⟩]
        · simp only [State.due, hpc, ClientPc.due]
          omega
      · -- as much as the array takes
        let n := min lineSize s.toClient.length
        have hpos : 0 < s.toClient.length := List.length_pos_of_ne_nil hnil
        have hn : 0 < n ∧ n ≤ lineSize ∧ n ≤ s.toClient.length := by
          have hsize : lineSize = 1024 := rfl
          simp only [n]
          omega
        have hfits := hroom.fits
        rw [Fits, hpc] at hfits
        have hle := length_toClient_le s
        have hprinted : printed (s.toClient.take n) = some (s.toClient.take n) := by
          rw [printed_eq (zero_notMem_take hroom.zero_notMem n),
            if_pos (by rw [List.length_take]; omega)]
        refine ⟨.client (.got n), { s with client := .gets, toClient := s.toClient.drop n },
          [s.toClient.take n], ?_, ?_⟩
        · simp only [calls, Action.fails, Answer.fails, step, client, hpc, hprinted]
          rw [if_neg (by simp), if_pos hn]
        · simp only [State.due, hpc, ClientPc.due, List.length_drop]
          omega
  | beyond bytes =>
      have hfits := hroom.fits
      rw [Fits, hpc] at hfits
      exact hfits.elim
  | closed buf => simp [hpc, ClientPc.isClosed] at hopen

/-- One of the two goes on. -/
lemma exists_step (h : Ok s) (hroom : Room s) (hfin : ¬ s.Finished) :
    ∃ a s' o, calls s a = some (s', o) ∧ s'.due < s.due := by
  cases hpc : s.server with
  | write buf =>
      refine ⟨.server .done, { s with server := .read, toClient := s.toClient ++ buf }, [], ?_, ?_⟩
      · simp only [calls, Action.fails, Answer.fails, step, server, hpc]
        rfl
      · simp only [State.due, hpc, ServerPc.due, List.length_append]
        omega
  | closed buf =>
      have hclosed : s.server.isClosed = true := by rw [hpc]; rfl
      refine h.exists_client hroom (Bool.eq_false_of_not_eq_true fun hc => hfin ⟨hc, hclosed⟩) ?_
      exact fun _ _ => hclosed
  | read =>
      by_cases hnil : s.toServer = []
      · by_cases hclosed : s.client.isClosed = true
        · refine ⟨.server .eof, { s with server := .closed [] }, [], ?_, ?_⟩
          · simp only [calls, Action.fails, Answer.fails, step, server, hpc]
            rw [if_neg (by simp), if_pos ⟨hclosed, hnil⟩]
            rfl
          · simp only [State.due, hpc, ServerPc.due]
            omega
        · refine h.exists_client hroom (Bool.eq_false_of_not_eq_true hclosed) fun hread hempty => ?_
          have hflight := h.read hread (by rw [hpc]; rfl)
          rw [State.flight, hempty, hpc, hnil] at hflight
          exact absurd rfl hflight
      · let n := min (bufSize - 1) s.toServer.length
        have hpos : 0 < s.toServer.length := List.length_pos_of_ne_nil hnil
        have hn : 0 < n ∧ n ≤ bufSize - 1 ∧ n ≤ s.toServer.length := by
          have hsize : bufSize = 4096 := rfl
          simp only [n]
          omega
        refine ⟨.server (.got n), { s with
          server := .write ((s.toServer.take n).map toupper), toServer := s.toServer.drop n }, [],
          ?_, ?_⟩
        · simp only [calls, Action.fails, Answer.fails, step, server, hpc]
          rw [if_neg (by simp), if_pos hn]
          rfl
        · simp only [State.due, hpc, ServerPc.due, List.length_drop, List.length_map,
            List.length_take]
          omega

end Ok

/-! ### Waiting forever -/

/-- A line is sent and comes back whole. -/
lemma reaches_line (hf : fgets (lineSize - 1) stdin = some (line, rest))
    (h : 2 ≤ (line.takeWhile (· ≠ 0)).length) : Reaches step (start stdin) (start rest) := by
  have hne : line.takeWhile (· ≠ 0) ≠ [] := List.ne_nil_of_length_pos (by omega)
  let buf := (line.takeWhile (· ≠ 0)).dropLast
  have hlt : buf.length < lineSize := length_payload_lt hf
  have hpos : 0 < buf.length := by
    rw [List.length_dropLast]
    omega
  have hread := reaches_read rest hpos hlt (by rw [List.length_map]) (zero_notMem_payload hf)
  have hdrop : (buf.map toupper).drop buf.length = [] := by
    rw [List.drop_eq_nil_iff, List.length_map]
  rw [hdrop] at hread
  exact ((reaches_gets [] hf hne).trans (reaches_answer rest [] hlt)).trans hread

/-- Nobody does anything any more that is defined. -/
structure Stuck (s : State) : Prop where
  calls : ∀ a, calls s a = none
  client : s.client.isClosed = false

/-- Everything is read, and the client waits for an answer. -/
lemma stuck_read (rest : List Byte) : Stuck ⟨.read, rest, [], .read, []⟩ where
  calls a := by
    rcases a with a | a <;> cases a <;>
      simp [calls, Action.fails, Answer.fails, step, TcpLoop.client, server, ServerPc.isClosed,
        ClientPc.isClosed]
    all_goals omega
  client := rfl

/-- `printf` has run past the array. -/
lemma stuck_beyond (bytes rest back : List Byte) :
    Stuck ⟨.beyond bytes, rest, [], .read, back⟩ where
  calls a := by
    rcases a with a | a <;> cases a <;>
      simp [calls, Action.fails, Answer.fails, step, TcpLoop.client, server, ClientPc.isClosed]
    all_goals omega
  client := rfl

/-- A string without a character that could be sent. -/
lemma exists_stuck_of_short (hf : fgets (lineSize - 1) stdin = some (line, rest))
    (h : (line.takeWhile (· ≠ 0)).length < 2) : ∃ s, Reaches step (start stdin) s ∧ Stuck s := by
  by_cases hnil : line.takeWhile (· ≠ 0) = []
  · -- the client does something undefined
    have hnone : payload line = none := if_pos hnil
    refine ⟨start stdin, Reaches.refl _ _, ⟨fun a => ?_, rfl⟩⟩
    rcases a with a | a <;> cases a <;>
      simp [calls, Action.fails, Answer.fails, step, client, server, start, hf, hnone,
        ClientPc.isClosed]
    all_goals omega
  · -- it sends nothing
    have hbuf : (line.takeWhile (· ≠ 0)).dropLast = [] := by
      rw [← List.length_eq_zero_iff, List.length_dropLast]
      omega
    have hreach := (reaches_gets [] hf hnil).trans (reaches_answer rest [] (length_payload_lt hf))
    rw [hbuf] at hreach
    exact ⟨_, hreach, stuck_read rest⟩

lemma exists_stuck (h : ∃ text ∈ lines stdin, text.length < 2) :
    ∃ s, Reaches step (start stdin) s ∧ Stuck s := by
  induction stdin using lines.induct with
  | case1 stdin hf =>
      rw [lines_of_none hf] at h
      obtain ⟨text, htext, -⟩ := h
      cases htext
  | case2 stdin line rest hf ih =>
      by_cases hshort : (line.takeWhile (· ≠ 0)).length < 2
      · exact exists_stuck_of_short hf hshort
      · rw [lines_of_some hf] at h
        obtain ⟨text, htext, hlt⟩ := h
        rcases List.mem_cons.1 htext with rfl | htext
        · exact absurd hlt hshort
        · obtain ⟨s, hreach, hstuck⟩ := ih ⟨text, htext, hlt⟩
          exact ⟨s, (reaches_line hf (by omega)).trans hreach, hstuck⟩

lemma not_finishes_of_stuck (h : Stuck s) : ¬ ∃ s', Reaches calls s s' ∧ s'.Finished := by
  rintro ⟨s', hreach, hclosed, -⟩
  obtain rfl := hreach.eq_of_stuck h.calls
  rw [h.client] at hclosed
  cases hclosed

end TcpLoop

end DemoClass
