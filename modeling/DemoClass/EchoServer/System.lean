import DemoClass.Lib.MsgQueue
import DemoClass.Lib.Runs
import Mathlib.Data.Int.Notation
import Mathlib.Logic.Function.Basic

/-!
# The echo service

The server (`server.c`), its clients (`client.c`) and the message queue between them.  A
client sends each line of its input and waits for a message of its own type; the server
takes the oldest message of any type and sends it back in upper case, with the type it
came with.

Every message in the queue carries the party that sent it, which no program reads.  A
client is at `fgets`, or at the `msgrcv` of its `msg_handler`, or it has left.  The server
is at its `msgrcv`, or it has still to send the message `out`.  A party whose behaviour is
undefined takes no further step.
-/

namespace DemoClass

namespace EchoServer

/-- A `char`, which is signed. -/
abbrev Byte := BitVec 8

/-- `BUF_SIZE` -/
def bufSize : ℕ := 4096

/-- The string that starts at the front of an array; a read behind the end of the array is
undefined. -/
def str : List Byte → Option (List Byte)
  | [] => none
  | c :: mem => if c = 0 then some [] else (str mem).map (c :: ·)

/-- The bytes of a string with its NUL. -/
def terminated (text : List Byte) : List Byte := text ++ [0]

/-- Bytes are written to the front of an array. -/
def write (cs mem : List Byte) : List Byte := cs ++ mem.drop cs.length

/-- An array of `BUF_SIZE` NULs. -/
def zeros : List Byte := List.replicate bufSize 0

/-- `struct msq_buf`; of a message in the queue, the bytes that were sent. -/
structure MsqBuf where
  mtype : ℕ
  mdata : List Byte
  deriving DecidableEq

/-- `wbuf.mtype` of the client with the process id `pid` -/
def clientType (pid : ℕ) : ℕ := 20 + pid % 10

/-- The bytes up to the first newline. -/
def firstLine : List Byte → List Byte
  | [] => []
  | c :: cs => if c = 10 then [c] else c :: firstLine cs

/-- `fgets` into an array of `n` bytes: the line it reads and the input that is left. -/
def fgets (n : ℕ) (stdin : List Byte) : Option (List Byte × List Byte) :=
  let line := firstLine (stdin.take (n - 1))
  if stdin = [] then none else some (line, stdin.drop line.length)

/-- `exit`, which ends a client -/
def exitText : List Byte := [101, 120, 105, 116]

/-- The test for a lower-case letter: above `'a' - 1` and below `'z' + 1`. -/
def isLower (c : Byte) : Prop := 97 - 1 < c.toInt ∧ c.toInt < 122 + 1

instance (c : Byte) : Decidable (isLower c) :=
  inferInstanceAs (Decidable (97 - 1 < c.toInt ∧ c.toInt < 122 + 1))

/-- What the server makes of a byte. -/
def toUpper (c : Byte) : Byte := if isLower c then BitVec.ofInt 8 (c.toInt - 32) else c

/-- The bytes that the loop in the server's `msg_handler` writes, up to the NUL. -/
def upperLoop : List Byte → Option (List Byte)
  | [] => none
  | c :: mem => if c = 0 then some [] else (upperLoop mem).map (toUpper c :: ·)

/-- `msg_handler` of the server: the message it sends. -/
def serverMsgHandler (buf : MsqBuf) : Option MsqBuf := do
  let written ← upperLoop buf.mdata
  let text ← str (write (terminated written) zeros)
  return ⟨buf.mtype, terminated text⟩

/-! ### The state -/

inductive Party (κ : Type)
  | server
  | client (k : κ)
  deriving DecidableEq

/-- A message in the queue. -/
structure Queued (κ : Type) where
  sender : Party κ
  msg : MsqBuf
  deriving DecidableEq

inductive ClientPc
  | prompt
  | waiting
  | stopped
  deriving DecidableEq

/-- `wdata` is `wbuf.mdata`, and `stdin` the input that is not yet read. -/
structure Client where
  pc : ClientPc
  wdata : List Byte
  stdin : List Byte

structure System (κ : Type) where
  queue : List (Queued κ)
  client : κ → Client
  /-- `buf.mdata` of the server -/
  sdata : List Byte
  out : Option MsqBuf
  running : Bool

/-- A client reads a line and sends it, or takes a message; the server takes a message, or
sends one. -/
inductive Action (κ : Type)
  | line (k : κ)
  | receive (k : κ)
  | serve
  | reply
  deriving DecidableEq

/-- A client has sent a text and then received another one. -/
structure Reply (κ : Type) where
  client : κ
  request : Option (List Byte)
  text : Option (List Byte)
  deriving DecidableEq

/-! ### Steps -/

variable {κ : Type}

/-- The type of a message in the queue. -/
def Queued.mtype (q : Queued κ) : ℕ := q.msg.mtype

/-- `msgsnd`, which rejects a type that is not positive. -/
def msgsnd (queue : List (Queued κ)) (sender : Party κ) (msg : MsqBuf) :
    Option (List (Queued κ)) :=
  if 0 < msg.mtype then some (queue ++ [⟨sender, msg⟩]) else none

/-- `msgrcv` with `MSG_NOERROR` copies as much of a message as the array holds. -/
def received (q : Queued κ) (mem : List Byte) : List Byte :=
  write (q.msg.mdata.take bufSize) mem

/-- Arrays of NULs, an empty queue, and what the clients are going to read. -/
def start (stdin : κ → List Byte) : System κ where
  queue := []
  client k := ⟨.prompt, zeros, stdin k⟩
  sdata := zeros
  out := none
  running := true

namespace System

variable [DecidableEq κ]

def setClient (s : System κ) (k : κ) (c : Client) : System κ :=
  { s with client := Function.update s.client k c }

/-- The client `k` has read `line` into its array. -/
def clientLine (typ : κ → ℕ) (s : System κ) (k : κ) (line stdin : List Byte) :
    Option (System κ × List (Reply κ)) :=
  let wdata := write (terminated line) (s.client k).wdata
  if wdata.take 4 = exitText then some (s.setClient k ⟨.stopped, wdata, stdin⟩, [])
  else
    match str wdata with
    | none => some (s.setClient k ⟨.stopped, wdata, stdin⟩, [])
    | some text =>
      match msgsnd s.queue (.client k) ⟨typ k, terminated text⟩ with
      | some queue => some ({ s.setClient k ⟨.waiting, wdata, stdin⟩ with queue := queue }, [])
      | none => some (s.setClient k ⟨.prompt, wdata, stdin⟩, [])

/-- The client `k` takes the message `q`, which leaves `queue`, and prints it. -/
def clientTake (s : System κ) (k : κ) (q : Queued κ) (queue : List (Queued κ)) :
    System κ × List (Reply κ) :=
  ({ s.setClient k { s.client k with pc := .prompt } with queue := queue },
    [⟨k, str (s.client k).wdata, str (received q zeros)⟩])

omit [DecidableEq κ] in
/-- The server takes the message `q`, which leaves `queue`. -/
def serverTake (s : System κ) (q : Queued κ) (queue : List (Queued κ)) : System κ :=
  let s := { s with queue := queue, sdata := received q s.sdata }
  if q.msg.mdata = [] then { s with running := false }
  else
    match serverMsgHandler ⟨q.mtype, s.sdata⟩ with
    | some m => { s with out := some m }
    | none => { s with running := false }

end System

/-- A step of the clients whose messages have the types `typ`, or of the server. -/
def step [DecidableEq κ] (typ : κ → ℕ) (s : System κ) :
    Action κ → Option (System κ × List (Reply κ))
  | .line k =>
    if (s.client k).pc = .prompt then
      match fgets (bufSize - 1) (s.client k).stdin with
      | some (line, stdin) => s.clientLine typ k line stdin
      | none => some (s.setClient k { s.client k with pc := .stopped }, [])
    else none
  | .receive k =>
    if (s.client k).pc = .waiting then
      -- the client waits as long as there is no message of its type
      (MsgQueue.receive Queued.mtype (typ k) s.queue).map fun r => s.clientTake k r.1 r.2
    else none
  | .serve =>
    if s.running ∧ s.out = none then
      (MsgQueue.receive Queued.mtype 0 s.queue).map fun r => (s.serverTake r.1 r.2, [])
    else none
  | .reply =>
    match s.out with
    | none => none
    | some m =>
      some ({ s with queue := (msgsnd s.queue .server m).getD s.queue, out := none }, [])

end EchoServer

end DemoClass
