import DemoClass.Chatroom.Server
import DemoClass.Lib.Runs

/-!
# The chat room

The server (`server.c`), its clients (`client.c`) and the message queue between them.
The queue is a list with the oldest message in front.  Every message in it carries
the party that sent it, which no program reads.

A client is at the `msgrcv` at the top of its loop, at the prompt, or at the `msgrcv`
that waits for the list of users.  The server is at its `msgrcv`, or it has still to
send the messages `out` of the message it has taken, one `msgsnd` after the other.
A party whose behaviour is undefined takes no further step.
-/

namespace DemoClass

namespace Chatroom

open CString

inductive Party (κ : Type)
  | server
  | client (k : κ)
  deriving DecidableEq

/-- A message in the queue. -/
structure Queued (κ : Type) where
  sender : Party κ
  msg : MsgBuf

/-- A message that was taken from the queue. -/
structure Taken (κ : Type) where
  receiver : Party κ
  message : Queued κ

inductive ClientPc
  | poll
  | prompt
  | listing
  | stopped
  deriving DecidableEq

structure Client where
  pc : ClientPc
  sBuf : MsgBuf

structure System (κ : Type) where
  queue : List (Queued κ)
  client : κ → Client
  server : Server
  out : List MsgBuf
  running : Bool

/-- What a client does in a round of its loop, and what the server does. -/
inductive Action (κ : Type)
  | poll (k : κ)
  | login (k : κ) (name : List Char)
  | list (k : κ)
  | listed (k : κ)
  | chat (k : κ) (dst_id : ℤ) (buf : List Char)
  | other (k : κ)
  | receive
  | send

/-! ### The queue -/

variable {κ : Type}

/-- `msgsnd`, which rejects a type that is not positive. -/
def msgsnd (queue : List (Queued κ)) (sender : Party κ) (msg : MsgBuf) : List (Queued κ) :=
  if 0 < msg.mtype then queue ++ [⟨sender, msg⟩] else queue

/-- Whether `msgrcv` with the type `msgtyp` asks for a message. -/
def wanted (msgtyp : ℕ) (q : Queued κ) : Bool := msgtyp = 0 ∨ q.msg.mtype = msgtyp

/-- The outcomes of `msgrcv`. -/
inductive Received (κ : Type)
  | nothing
  | tooBig
  | message (q : Queued κ) (queue : List (Queued κ))

/-- `msgrcv`: the oldest message it asks for, which stays in the queue when it does not
fit into the buffer. -/
def msgrcv (queue : List (Queued κ)) (msgsz msgtyp : ℕ) : Received κ :=
  match queue.find? (wanted msgtyp) with
  | none => .nothing
  | some q =>
    if q.msg.mtext.length ≤ msgsz then .message q (queue.eraseP (wanted msgtyp)) else .tooBig

/-! ### The texts of a client -/

/-- `id` of the client with the process id `pid` -/
def clientId (pid : ℕ) : ℕ := pid % 100

def loginText (id : ℕ) (name : List Char) : List Char :=
  ['l', ':', '0', '0', ':'] ++ (decimal id ++ '#' :: name)

def listText (id : ℕ) : List Char := ['L', ':'] ++ (decimal id ++ [':'])

def chatText (dst_id : ℤ) (buf : List Char) : List Char :=
  ['C', ':'] ++ (decimal dst_id ++ ':' :: buf)

/-- A text is printed to the buffer. -/
def MsgBuf.print (buf : MsgBuf) (text : List Char) : MsgBuf :=
  { buf with mtext := snprintf bufSize text buf.mtext }

/-- The message that `msgsnd` sends of the buffer, up to the NUL of the text. -/
def MsgBuf.sent (buf : MsgBuf) : MsgBuf :=
  ⟨buf.mtype, terminated (buf.mtext.takeWhile (· ≠ nul))⟩

/-! ### Steps -/

/-- Buffers with any contents, an empty queue, and no user. -/
def start (junk : Party κ → ℕ → Char) : System κ where
  queue := []
  client k := ⟨.poll, myType, (List.range bufSize).map (junk (.client k))⟩
  server := ⟨⟨0, (List.range bufSize).map (junk .server)⟩, []⟩
  out := []
  running := true

namespace System

variable [DecidableEq κ]

def setClient (s : System κ) (k : κ) (c : Client) : System κ :=
  { s with client := Function.update s.client k c }

/-- The client `k` goes on at `pc`. -/
def goto (s : System κ) (k : κ) (pc : ClientPc) : System κ :=
  s.setClient k { s.client k with pc := pc }

/-- The client `k` sends its buffer, which is `buf` by now, and goes on at `pc`. -/
def clientSend (s : System κ) (k : κ) (buf : MsgBuf) (pc : ClientPc) : System κ :=
  { s.setClient k ⟨pc, buf⟩ with queue := msgsnd s.queue (.client k) buf.sent }

/-- The client `k` takes the message `q`, which leaves `queue`, and goes on at `pc`. -/
def clientTake (s : System κ) (k : κ) (q : Queued κ) (queue : List (Queued κ)) (pc : ClientPc) :
    System κ :=
  { s.setClient k ⟨pc, (s.client k).sBuf.receive q.msg⟩ with queue := queue }

/-- The server takes the message `q`, which leaves `queue`, and handles it. -/
def serverTake (s : System κ) (q : Queued κ) (queue : List (Queued κ)) : System κ :=
  let server := { s.server with sBuf := s.server.sBuf.receive q.msg }
  match msgHandler server with
  | none => { s with queue := queue, server := server, running := false }
  | some (server, out) => { s with queue := queue, server := server, out := out }

end System

variable [DecidableEq κ]

/-- A step of the clients with the process ids `pid` or of the server, with the message
it takes. -/
def step (pid : κ → ℕ) (s : System κ) : Action κ → Option (System κ × List (Taken κ))
  | .poll k =>
    if (s.client k).pc = .poll then
      match msgrcv s.queue bufSize (clientId (pid k)) with
      | .message q queue => some (s.clientTake k q queue .prompt, [⟨.client k, q⟩])
      | .nothing | .tooBig => some (s.goto k .prompt, [])
    else none
  | .login k name =>
    if (s.client k).pc = .prompt then
      if name.length < maxName then
        some (s.clientSend k ((s.client k).sBuf.print (loginText (clientId (pid k)) name)) .poll,
          [])
      -- `scanf` writes behind the end of `name`
      else some (s.goto k .stopped, [])
    else none
  | .list k =>
    if (s.client k).pc = .prompt then
      some (s.clientSend k ((s.client k).sBuf.print (listText (clientId (pid k)))) .listing, [])
    else none
  | .listed k =>
    if (s.client k).pc = .listing then
      match msgrcv s.queue bufSize (clientId (pid k)) with
      | .message q queue => some (s.clientTake k q queue .poll, [⟨.client k, q⟩])
      | .tooBig => some (s.goto k .poll, [])
      -- the client waits
      | .nothing => none
    else none
  | .chat k dst_id buf =>
    if (s.client k).pc = .prompt then
      if buf.length < 1024 then
        let sBuf := { (s.client k).sBuf with mtype := dst_id }
        some (s.clientSend k (sBuf.print (chatText dst_id buf)) .poll, [])
      -- `scanf` writes behind the end of `buf`
      else some (s.goto k .stopped, [])
    else none
  | .other k => if (s.client k).pc = .prompt then some (s.goto k .poll, []) else none
  | .receive =>
    if s.running ∧ s.out = [] then
      match msgrcv s.queue bufSize 0 with
      | .message q queue => some (s.serverTake q queue, [⟨.server, q⟩])
      -- an error other than `EINTR` ends the loop
      | .tooBig => some ({ s with running := false }, [])
      | .nothing => none
    else none
  | .send =>
    match s.out with
    | [] => none
    | m :: ms => some ({ s with queue := msgsnd s.queue .server m, out := ms }, [])

end Chatroom

end DemoClass
