import DemoClass.Lib.CString

/-!
# The server of the chat room (`server.c`)

`msg_handler` reads the message in `s_buf`, changes the list of users and sends
messages.  What it sends is returned as a list, in the order of the calls of
`msgsnd`.  There is no result where the server reads behind the end of an array or
writes there: the program has no defined behaviour then.
-/

namespace DemoClass

namespace Chatroom

open CString

/-- `MY_TYPE` -/
def myType : ℤ := 1

/-- `BUF_SIZE` -/
def bufSize : ℕ := 255

/-- `MAX_NAME` -/
def maxName : ℕ := 20

/-- `struct msg_buf`; of a message in the queue, the characters that were sent. -/
structure MsgBuf where
  mtype : ℤ
  mtext : List Char
  deriving DecidableEq

/-- `struct user_info`; `name` is the whole array. -/
structure UserInfo where
  id : ℤ
  name : List Char
  deriving DecidableEq

/-- The variables `s_buf` and `head` of the server. -/
structure Server where
  sBuf : MsgBuf
  head : List UserInfo
  deriving DecidableEq

/-- A message is copied into the buffer. -/
def MsgBuf.receive (buf m : MsgBuf) : MsgBuf := ⟨m.mtype, write m.mtext buf.mtext⟩

/-- `send_msg`, which is always called with the length of the text. -/
def sendMsg (cid : ℤ) (text : List Char) : MsgBuf := ⟨cid, terminated text⟩

/-- `m_user_online_broadcast` -/
def mUserOnlineBroadcast (head : List UserInfo) : Option (List MsgBuf) := do
  let plast ← head.getLast?
  let name ← str plast.name
  let text := ['B', ':', '0', '0', ':'] ++ name ++
    [' ', 'i', 's', ' ', 'o', 'n', 'l', 'i', 'n', 'e', ',', ' ', 'i', 'd', '('] ++
    decimal plast.id ++ [')', '\n']
  return head.map fun pcur => sendMsg pcur.id (text.take (bufSize - 1))

/-- `m_list_user`; `strncat` is given the size of the whole buffer and does not stop at
its end. -/
def mListUser (head : List UserInfo) (id : ℤ) : Option (List MsgBuf) := do
  let text ← head.foldlM (fun text pu => do
    let name ← str pu.name
    let text := text ++ ('#' :: decimal pu.id ++ '#' :: name ++ ['$'])
    if text.length < bufSize then some text else none) ['L', ':', '0', '0', ':']
  return [sendMsg id text]

/-- `m_login` of the text from the index `msg` on. -/
def mLogin (s : Server) (msg : ℕ) : Option (Server × List MsgBuf) := do
  let mtext := s.sBuf.mtext.set (msg + 2) nul
  let id ← atoi (mtext.drop msg)
  let name ← strncpy maxName (mtext.drop (msg + 3))
  let head := s.head ++ [⟨id, name⟩]
  let out ← mUserOnlineBroadcast head
  return (⟨{ s.sBuf with mtext := mtext }, head⟩, out)

/-- `m_chat` of the text from the index `msg` on.  The text is moved to the front of
the same array. -/
def mChat (s : Server) (msg : ℕ) : Option (Server × List MsgBuf) := do
  let mtext := s.sBuf.mtext.set (msg + 2) nul
  let dst_id ← atoi (mtext.drop msg)
  let mtext ← strncpy bufSize (mtext.drop (msg + 3))
  let text ← str mtext
  return ({ s with sBuf := ⟨dst_id, mtext⟩ }, [sendMsg dst_id text])

/-- `msg_handler` of the text in `s_buf`. -/
def msgHandler (s : Server) : Option (Server × List MsgBuf) :=
  match s.sBuf.mtext.head? with
  | some 'l' => mLogin s 5
  | some 'L' => do
    let id ← strtol (s.sBuf.mtext.drop 2)
    let out ← mListUser s.head (toInt id)
    return (s, out)
  | some 'C' => mChat s 3
  -- `Q`, `B` and `F` do nothing, and other characters are reported
  | _ => some (s, [])

/-! ### Where the replies go -/

variable {s s' : Server} {head : List UserInfo} {out : List MsgBuf} {m : MsgBuf} {id : ℕ}
  {rest : List Char}

lemma mUserOnlineBroadcast_mtype (h : mUserOnlineBroadcast head = some out) (hm : m ∈ out) :
    ∃ u ∈ head, m.mtype = u.id := by
  simp only [mUserOnlineBroadcast, Option.bind_eq_bind, Option.bind_eq_some_iff, Option.pure_def,
    Option.some.injEq] at h
  obtain ⟨plast, -, name, -, rfl⟩ := h
  obtain ⟨u, hu, rfl⟩ := List.mem_map.1 hm
  exact ⟨u, hu, rfl⟩

/-- A new user with a name is announced. -/
lemma mUserOnlineBroadcast_append (head : List UserInfo) {u : UserInfo} {name : List Char}
    (hname : str u.name = some name) :
    ∃ out, mUserOnlineBroadcast (head ++ [u]) = some out := by
  refine Option.isSome_iff_exists.1 ?_
  rw [mUserOnlineBroadcast, List.getLast?_concat]
  simp [hname]

lemma mListUser_mtype {i : ℤ} (h : mListUser head i = some out) (hm : m ∈ out) : m.mtype = i := by
  simp only [mListUser, Option.bind_eq_bind, Option.bind_eq_some_iff, Option.pure_def,
    Option.some.injEq] at h
  obtain ⟨text, -, rfl⟩ := h
  obtain rfl := List.mem_singleton.1 hm
  rfl

/-- An id of at most two digits ends at `#` or at the NUL that `m_login` writes. -/
lemma atoi_login (hid : id < 100) (rest : List Char) :
    atoi ((decimal id ++ '#' :: rest).set 2 nul) = some (id : ℤ) := by
  have hlen : (decimal (id : ℤ)).length ≤ 2 := length_decimal_le (by decide) hid
  have hpos := length_decimal_pos id
  rw [List.set_append_right _ _ hlen]
  rcases show (decimal (id : ℤ)).length = 1 ∨ (decimal (id : ℤ)).length = 2 by omega with h | h
  · rw [h]
    exact atoi_decimal (by omega) (by decide) _
  · rw [h]
    exact atoi_decimal (by omega) (by decide) _

/-- A login adds a user with the id in the text, and everybody is told. -/
lemma msgHandler_login (hid : id < 100)
    (hs : s.sBuf.mtext = ['l', ':', '0', '0', ':'] ++ (decimal id ++ '#' :: rest))
    (h : msgHandler s = some (s', out)) :
    (∀ u ∈ s'.head, u ∈ s.head ∨ u.id = id) ∧ ∀ m ∈ out, ∃ u ∈ s'.head, m.mtype = u.id := by
  have hmsg : (s.sBuf.mtext.set 7 nul).drop 5 = (decimal id ++ '#' :: rest).set 2 nul := by
    rw [hs]
    rfl
  have hhandler : msgHandler s = mLogin s 5 := by
    rw [msgHandler, hs]
    rfl
  rw [hhandler, mLogin] at h
  simp only [hmsg, atoi_login hid, Option.bind_eq_bind, Option.bind_some, Option.bind_eq_some_iff,
    Option.pure_def, Option.some.injEq, Prod.mk.injEq] at h
  obtain ⟨name, -, out', hout, rfl, rfl⟩ := h
  refine ⟨fun u hu => ?_, fun m hm => mUserOnlineBroadcast_mtype hout hm⟩
  rcases List.mem_append.1 hu with hu | hu
  · exact Or.inl hu
  · obtain rfl := List.mem_singleton.1 hu
    exact Or.inr rfl

/-- A request for the list is answered to the id in the text. -/
lemma msgHandler_list (hid : id < 100)
    (hs : s.sBuf.mtext = ['L', ':'] ++ (decimal id ++ ':' :: rest))
    (h : msgHandler s = some (s', out)) : s'.head = s.head ∧ ∀ m ∈ out, m.mtype = id := by
  have hid' : (strtol (s.sBuf.mtext.drop 2)).map toInt = some (id : ℤ) := by
    rw [hs]
    exact atoi_decimal (by omega) (by decide) rest
  obtain ⟨i, hi, hi'⟩ := Option.map_eq_some_iff.1 hid'
  rw [msgHandler, show s.sBuf.mtext.head? = some 'L' by rw [hs]; rfl] at h
  simp only [hi, Option.bind_eq_bind, Option.bind_some, Option.bind_eq_some_iff,
    Option.pure_def, Option.some.injEq, Prod.mk.injEq] at h
  obtain ⟨out', hout, rfl, rfl⟩ := h
  exact ⟨rfl, fun m hm => (mListUser_mtype hout hm).trans hi'⟩

/-- The number in front of a text without a digit is 0. -/
lemma atoi_colon (rest : List Char) : atoi (':' :: rest) = some 0 := by
  have hc : isSpace ':' = false := by decide
  have hread : readDigits (':' :: rest) = some 0 := by simp [readDigits]
  have hstrtol : strtol (':' :: rest) = some 0 := by
    rw [strtol, List.dropWhile_cons_of_neg (by simp [hc])]
    simp only [hread, Option.map_some]
    rfl
  rw [atoi, hstrtol]
  rfl

/-- The id of a chat message is read from its second digit on. -/
lemma atoi_chat (hid : id < 100) (rest : List Char) :
    atoi (((['C', ':'] ++ (decimal id ++ ':' :: rest)).set 5 nul).drop 3) =
      some (if id < 10 then 0 else ((id % 10 : ℕ) : ℤ)) := by
  by_cases h : id < 10
  · rw [if_pos h, decimal_of_lt h]
    exact atoi_colon _
  · have htwo : decimal (id : ℤ) = [Nat.digitChar (id / 10)] ++ decimal ((id % 10 : ℕ) : ℤ) := by
      rw [decimal_of_le (by omega), decimal_of_lt (by omega : id / 10 < 10)]
    have hone : decimal ((id % 10 : ℕ) : ℤ) = [Nat.digitChar (id % 10)] :=
      decimal_of_lt (by omega)
    rw [if_neg h, htwo, ← atoi_decimal (show id % 10 < 2147483648 by omega)
      (show ':'.isDigit = false by decide) (rest.set 0 nul), hone]
    rfl

/-- The text after the id goes to the number that the server finds. -/
lemma msgHandler_chat (hid : id < 100)
    (hs : s.sBuf.mtext = ['C', ':'] ++ (decimal id ++ ':' :: rest))
    (h : msgHandler s = some (s', out)) :
    s'.head = s.head ∧ ∀ m ∈ out, m.mtype = if id < 10 then 0 else ((id % 10 : ℕ) : ℤ) := by
  have hatoi : atoi ((s.sBuf.mtext.set (3 + 2) nul).drop 3) =
      some (if id < 10 then 0 else ((id % 10 : ℕ) : ℤ)) := hs ▸ atoi_chat hid rest
  have hhandler : msgHandler s = mChat s 3 := by
    rw [msgHandler, hs]
    rfl
  rw [hhandler, mChat] at h
  simp only [hatoi, Option.bind_eq_bind, Option.bind_some, Option.bind_eq_some_iff,
    Option.pure_def, Option.some.injEq, Prod.mk.injEq] at h
  obtain ⟨mtext, -, text, -, rfl, rfl⟩ := h
  refine ⟨rfl, fun m hm => ?_⟩
  obtain rfl := List.mem_singleton.1 hm
  rfl

end Chatroom

end DemoClass
