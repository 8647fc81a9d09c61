import DemoClass.Chatroom.Routing

/-!
# What the server reads of the clients' messages

A client prints an id with as many digits as it has, and the server cuts the message at
fixed places.  A login is read as it was printed when the id has two digits
(`added_iff`), and a chat message never (`not_forwards`).

The list of users is put together in an array of `BUF_SIZE` characters, whatever the
number of users.  It fits when the names and ids are short enough (`list_fits_iff`).
-/

namespace DemoClass

namespace Chatroom

open CString

/-- The server handles the message that a client prints to its buffer. -/
def Server.handle (s : Server) (buf : MsgBuf) (text : List Char) : Option (Server × List MsgBuf) :=
  msgHandler { s with sBuf := s.sBuf.receive (buf.print text).sent }

variable {s s' : Server} {buf : MsgBuf} {text : List Char} {out : List MsgBuf} {id : ℕ}

/-- A text that fits into the buffer stands in front of what was in the buffer of the
server. -/
lemma receive_sent_print (s : Server) (buf : MsgBuf) (hlen : text.length < bufSize)
    (hnul : nul ∉ text) :
    (s.sBuf.receive (buf.print text).sent).mtext =
      text ++ nul :: s.sBuf.mtext.drop (text.length + 1) := by
  have hsent : (buf.print text).sent.mtext = terminated text := by
    rw [MsgBuf.sent, MsgBuf.print, takeWhile_snprintf, List.take_of_length_le (by omega),
      takeWhile_ne_nul hnul]
  rw [MsgBuf.receive, hsent, write, terminated]
  simp

/-! ### Chat -/

/-- The messages that get into an empty queue. -/
def queued (out : List MsgBuf) : List MsgBuf :=
  (out.foldl (fun queue m => msgsnd queue (.server : Party ℕ) m) []).map Queued.msg

/-- The server sends the text of the client's message on to the type `id`. -/
def Forwards (s : Server) (buf : MsgBuf) (id : ℕ) (text : List Char) : Prop :=
  ∃ s' out, s.handle { buf with mtype := id } (chatText id text) = some (s', out) ∧
    queued out = [sendMsg id text]

lemma mem_foldl_msgsnd {q : Queued ℕ} (queue : List (Queued ℕ))
    (hq : q ∈ out.foldl (fun queue m => msgsnd queue .server m) queue) :
    q ∈ queue ∨ q.msg ∈ out ∧ 0 < q.msg.mtype := by
  induction out generalizing queue with
  | nil => exact Or.inl hq
  | cons m out ih =>
      rcases ih _ hq with hq | ⟨hmem, hpos⟩
      · have hq : q ∈ msgsnd queue .server m := hq
        rw [msgsnd] at hq
        split at hq
        · rename_i hpos
          rcases List.mem_append.1 hq with hq | hq
          · exact Or.inl hq
          · obtain rfl := List.mem_singleton.1 hq
            exact Or.inr ⟨List.mem_cons_self, hpos⟩
        · exact Or.inl hq
      · exact Or.inr ⟨List.mem_cons_of_mem m hmem, hpos⟩

/-- Only messages with a positive type get into the queue. -/
lemma mem_queued {m : MsgBuf} (hm : m ∈ queued out) : m ∈ out ∧ 0 < m.mtype := by
  obtain ⟨q, hq, rfl⟩ := List.mem_map.1 hm
  simpa using mem_foldl_msgsnd [] hq

/-- The server takes the id without its first digit. -/
lemma handle_chat_mtype (hid : id < 100) (h : s.handle buf (chatText id text) = some (s', out)) :
    ∀ m ∈ out, m.mtype = if id < 10 then 0 else ((id % 10 : ℕ) : ℤ) := by
  have hlen : (decimal (id : ℤ)).length ≤ 2 := length_decimal_le (by decide) hid
  have hnul : Char.ofNat 0 ∉ decimal (id : ℤ) := nul_notMem_decimal id
  obtain ⟨rest, hrest⟩ := sent_print_append buf (['C', ':'] ++ (decimal id ++ [':']))
    (by simp [bufSize]; omega) (by simp [nul, hnul]) text
  have ht : chatText id text = ['C', ':'] ++ (decimal id ++ [':']) ++ text := by simp [chatText]
  obtain ⟨rest', hmem⟩ : ∃ rest', (s.sBuf.receive (buf.print (chatText id text)).sent).mtext =
      ['C', ':'] ++ (decimal id ++ ':' :: rest') := by
    refine ⟨rest ++ s.sBuf.mtext.drop (buf.print (chatText id text)).sent.mtext.length, ?_⟩
    rw [MsgBuf.receive, write, ht, hrest]
    simp
  exact (msgHandler_chat (s := ⟨s.sBuf.receive (buf.print (chatText id text)).sent, s.head⟩)
    hid hmem h).2

/-- No chat message reaches the type of its id: a number of one digit gives the type 0,
which `msgsnd` rejects, and a number of two digits the type of its last digit. -/
theorem not_forwards (s : Server) (buf : MsgBuf) (hid : id < 100) (text : List Char) :
    ¬ Forwards s buf id text := by
  rintro ⟨s', out, hh, hq⟩
  have htype := handle_chat_mtype hid hh
  have hmem : sendMsg id text ∈ queued out := hq ▸ List.mem_singleton_self _
  obtain ⟨hout, hpos⟩ := mem_queued hmem
  have hid' : (id : ℤ) = if id < 10 then 0 else ((id % 10 : ℕ) : ℤ) := htype _ hout
  have hpos' : 0 < (id : ℤ) := hpos
  split at hid' <;> omega

/-- A buffer of zeros. -/
def zeros : MsgBuf := ⟨0, List.replicate bufSize nul⟩

theorem not_forwards_hi : ¬ Forwards ⟨zeros, []⟩ zeros 12 ['h', 'i'] :=
  not_forwards ⟨zeros, []⟩ zeros (by decide) ['h', 'i']

/-- Of `hi` for the id 12, `i` goes to the type 2. -/
theorem chat_twelve :
    (Server.handle ⟨zeros, []⟩ { zeros with mtype := 12 } (chatText 12 ['h', 'i'])).map
        (fun r => queued r.2) = some [sendMsg 2 ['i']] ∧
      ¬ Forwards ⟨zeros, []⟩ zeros 12 ['h', 'i'] := by
  have hrun : (Server.handle ⟨zeros, []⟩ { zeros with mtype := 12 }
      (chatText 12 ['h', 'i'])).map (fun r => queued r.2) = some [sendMsg 2 ['i']] := by
    decide +kernel
  refine ⟨hrun, ?_⟩
  rintro ⟨s', out, hh, hq⟩
  have hh' : Server.handle ⟨zeros, []⟩ { zeros with mtype := 12 } (chatText 12 ['h', 'i']) =
    some (s', out) := hh
  rw [hh', Option.map_some, hq] at hrun
  exact absurd hrun (by decide)

/-! ### Login -/

/-- A login of the client with the buffer `buf`: `scanf` stores a name that is not empty
in an array of `MAX_NAME` characters. -/
structure Login where
  buf : MsgBuf
  id : ℕ
  name : List Char
  id_lt : id < 100
  name_ne_nil : name ≠ []
  length_name_lt : name.length < maxName
  nul_notMem : nul ∉ name

namespace Login

/-- The server handles the message of the login. -/
def handle (l : Login) (s : Server) : Option (Server × List MsgBuf) :=
  s.handle l.buf (loginText l.id l.name)

/-- The name is cut behind three characters, as if the id always had two digits. -/
def storedName (l : Login) : List Char := if l.id < 10 then l.name.tail else l.name

/-- The entry that the server makes. -/
def user (l : Login) : UserInfo :=
  ⟨l.id, l.storedName ++ List.replicate (maxName - l.storedName.length) nul⟩

variable (l : Login)

lemma storedName_subset : l.storedName ⊆ l.name := by
  rw [storedName]
  split
  · exact List.tail_subset l.name
  · exact List.Subset.refl l.name

lemma nul_notMem_storedName : nul ∉ l.storedName := fun h => l.nul_notMem (l.storedName_subset h)

lemma length_storedName_lt : l.storedName.length < maxName := by
  have h := l.length_name_lt
  rw [storedName]
  split
  · rw [List.length_tail]
    omega
  · exact h

/-- The name in the entry is the stored one. -/
lemma str_user : str l.user.name = some l.storedName := by
  obtain ⟨k, hk⟩ : ∃ k, maxName - l.storedName.length = k + 1 :=
    ⟨maxName - l.storedName.length - 1, by have h := l.length_storedName_lt; omega⟩
  rw [user, hk, List.replicate_succ]
  exact str_append_nul l.nul_notMem_storedName _

lemma storedName_eq_iff : l.storedName = l.name ↔ 10 ≤ l.id := by
  rw [storedName]
  split
  · have hlt : l.name.tail.length < l.name.length := by
      rw [List.length_tail]
      have hpos := List.length_pos_iff.2 l.name_ne_nil
      omega
    refine ⟨fun h => ?_, fun h => by omega⟩
    exact absurd (congrArg List.length h) hlt.ne
  · exact ⟨fun _ => by omega, fun _ => rfl⟩

end Login

/-- The text behind the id, with the NUL that `m_login` writes. -/
lemma drop_set_login (l : Login) (mem : List Char) : ∃ mem',
    ((decimal l.id ++ '#' :: (l.name ++ nul :: mem)).set 2 nul).drop 3 =
      l.storedName ++ nul :: mem' := by
  obtain ⟨c, name, hname⟩ := List.exists_cons_of_ne_nil l.name_ne_nil
  rw [Login.storedName, hname]
  by_cases h : l.id < 10
  · rw [if_pos h, decimal_of_lt h]
    exact ⟨mem, rfl⟩
  · have hid := l.id_lt
    have htwo : decimal (l.id : ℤ) = [Nat.digitChar (l.id / 10), Nat.digitChar (l.id % 10)] := by
      rw [decimal_of_le (by omega), decimal_of_lt (by omega : l.id / 10 < 10),
        decimal_of_lt (by omega : l.id % 10 < 10)]
      rfl
    rw [if_neg h, htwo]
    exact ⟨mem, rfl⟩

namespace Login

variable (l : Login)

lemma length_text_lt : (loginText l.id l.name).length < bufSize := by
  have hid : (decimal (l.id : ℤ)).length ≤ 2 := length_decimal_le (by decide) l.id_lt
  have hname := l.length_name_lt
  simp only [maxName] at hname
  simp only [loginText, bufSize, List.length_append, List.length_cons, List.length_nil]
  omega

lemma nul_notMem_text : nul ∉ loginText l.id l.name := by
  have hid : Char.ofNat 0 ∉ decimal (l.id : ℤ) := nul_notMem_decimal l.id
  have hname : Char.ofNat 0 ∉ l.name := l.nul_notMem
  simp [loginText, nul, hid, hname]

/-- The server always adds an entry, and tells everybody about it. -/
lemma handle_eq (s : Server) :
    ∃ sBuf out, l.handle s = some (⟨sBuf, s.head ++ [l.user]⟩, out) := by
  have hmtext := receive_sent_print s l.buf l.length_text_lt l.nul_notMem_text
  generalize s.sBuf.mtext.drop ((loginText l.id l.name).length + 1) = mem at hmtext
  generalize hbuf : s.sBuf.receive (l.buf.print (loginText l.id l.name)).sent = sBuf at hmtext
  have hfront : sBuf.mtext =
      ['l', ':', '0', '0', ':'] ++ (decimal l.id ++ '#' :: (l.name ++ nul :: mem)) := by
    rw [hmtext, loginText]
    simp
  obtain ⟨mem', hmem'⟩ := drop_set_login l mem
  have hid : atoi ((sBuf.mtext.set (5 + 2) nul).drop 5) = some (l.id : ℤ) :=
    hfront ▸ atoi_login l.id_lt (l.name ++ nul :: mem)
  have hname : strncpy maxName ((sBuf.mtext.set (5 + 2) nul).drop (5 + 3)) =
      some l.user.name := by
    have hdrop : (sBuf.mtext.set (5 + 2) nul).drop (5 + 3) = l.storedName ++ nul :: mem' :=
      hfront ▸ hmem'
    rw [hdrop, strncpy_append_nul l.nul_notMem_storedName l.length_storedName_lt, user]
  obtain ⟨out, hout⟩ := mUserOnlineBroadcast_append s.head l.str_user
  have hhandler : l.handle s = mLogin ⟨sBuf, s.head⟩ 5 := by
    rw [handle, Server.handle, hbuf, msgHandler]
    simp only [hfront]
    rfl
  refine ⟨{ sBuf with mtext := sBuf.mtext.set (5 + 2) nul }, out, ?_⟩
  rw [hhandler, mLogin]
  simp only [hid, hname, Option.bind_eq_bind, Option.bind_some]
  change (mUserOnlineBroadcast (s.head ++ [l.user])).bind _ = _
  rw [hout]
  rfl

/-- The server adds one entry, with the id and the name of the login. -/
def Added (s : Server) : Prop :=
  ∃ s' out u, l.handle s = some (s', out) ∧ s'.head = s.head ++ [u] ∧
    u.id = (l.id : ℤ) ∧ str u.name = some l.name

/-- A login is read as it was printed when its id has two digits. -/
theorem added_iff (s : Server) : l.Added s ↔ 10 ≤ l.id := by
  obtain ⟨sBuf, out, heq⟩ := l.handle_eq s
  constructor
  · rintro ⟨s', out', u, hh, hhead, -, hname⟩
    obtain ⟨rfl, rfl⟩ : ⟨sBuf, s.head ++ [l.user]⟩ = s' ∧ out = out' := by
      simpa using heq.symm.trans hh
    obtain rfl : l.user = u := by simpa using hhead
    rw [l.str_user, Option.some.injEq] at hname
    exact l.storedName_eq_iff.1 hname
  · intro hid
    refine ⟨_, out, l.user, heq, rfl, rfl, ?_⟩
    rw [l.str_user, l.storedName_eq_iff.2 hid]

/-- The client with the id 7 logs in as `bob`. -/
def bob : Login where
  buf := zeros
  id := 7
  name := ['b', 'o', 'b']
  id_lt := by decide
  name_ne_nil := by decide
  length_name_lt := by decide
  nul_notMem := by decide

/-- The server takes `ob` for the name. -/
theorem not_added_bob :
    (bob.handle ⟨zeros, []⟩).map (fun r => r.1.head.map fun u => (u.id, str u.name)) =
        some [(7, some ['o', 'b'])] ∧
      ¬ bob.Added ⟨zeros, []⟩ := by
  have hrun : (bob.handle ⟨zeros, []⟩).map
      (fun r => r.1.head.map fun u => (u.id, str u.name)) = some [(7, some ['o', 'b'])] := by
    decide +kernel
  refine ⟨hrun, ?_⟩
  rintro ⟨s', out, u, hh, hhead, -, hname⟩
  rw [hh, Option.map_some, hhead, List.nil_append, List.map_singleton, hname] at hrun
  exact absurd hrun (by simp [bob])

end Login

/-! ### The list of users -/

/-- The server handles logins, one after the other. -/
def Server.logins (s : Server) (ls : List Login) : Option Server :=
  ls.foldlM (fun s l => (l.handle s).map Prod.fst) s

/-- All logins are handled, and leave their entries. -/
lemma logins_head (ls : List Login) (s : Server) :
    ∃ s', s.logins ls = some s' ∧ s'.head = s.head ++ ls.map Login.user := by
  induction ls generalizing s with
  | nil => exact ⟨s, rfl, by simp⟩
  | cons l ls ih =>
      obtain ⟨sBuf, out, heq⟩ := l.handle_eq s
      obtain ⟨s', hs', hhead⟩ := ih ⟨sBuf, s.head ++ [l.user]⟩
      refine ⟨s', ?_, by simp [hhead]⟩
      rw [Server.logins, List.foldlM_cons, heq]
      exact hs'

/-- What `sprintf` makes of an entry. -/
def entryText (u : UserInfo) (name : List Char) : List Char :=
  '#' :: decimal u.id ++ '#' :: name ++ ['$']

/-- One round of the loop of `m_list_user`. -/
def addEntry (text : List Char) (u : UserInfo) : Option (List Char) := do
  let name ← str u.name
  let text := text ++ entryText u name
  if text.length < bufSize then some text else none

lemma mListUser_eq (head : List UserInfo) (i : ℤ) :
    mListUser head i =
      (head.foldlM addEntry ['L', ':', '0', '0', ':']).bind fun text => some [sendMsg i text] :=
  rfl

namespace Login

/-- The characters that a user takes up in the list. -/
def room (l : Login) : ℕ := l.name.length + if l.id < 10 then 3 else 5

lemma length_entryText (l : Login) : (entryText l.user l.storedName).length = l.room := by
  have hid := l.id_lt
  have hpos := List.length_pos_iff.2 l.name_ne_nil
  have hlen : (entryText l.user l.storedName).length =
      (decimal (l.id : ℤ)).length + l.storedName.length + 3 := by
    simp [entryText, user]
    omega
  rw [hlen, storedName, room]
  by_cases h : l.id < 10
  · rw [if_pos h, if_pos h, decimal_of_lt h, List.length_tail, List.length_singleton]
    omega
  · rw [if_neg h, if_neg h, decimal_of_le (by omega), decimal_of_lt (by omega : l.id / 10 < 10),
      decimal_of_lt (by omega : l.id % 10 < 10), List.length_append, List.length_singleton,
      List.length_singleton]
    omega

end Login

lemma addEntry_user (text : List Char) (l : Login) :
    addEntry text l.user =
      if text.length + l.room < bufSize then some (text ++ entryText l.user l.storedName)
      else none := by
  rw [addEntry, l.str_user, ← l.length_entryText, ← List.length_append]
  rfl

/-- The entries are put behind each other as long as there is room for all of them. -/
lemma foldlM_addEntry (ls : List Login) (htext : text.length < bufSize) :
    ((ls.map Login.user).foldlM addEntry text = none ∧
        bufSize ≤ text.length + (ls.map Login.room).sum) ∨
      ∃ text', (ls.map Login.user).foldlM addEntry text = some text' ∧
        text'.length = text.length + (ls.map Login.room).sum ∧ text'.length < bufSize := by
  induction ls generalizing text with
  | nil => exact Or.inr ⟨text, rfl, rfl, htext⟩
  | cons l ls ih =>
      rw [List.map_cons, List.map_cons, List.foldlM_cons, addEntry_user, List.sum_cons]
      by_cases h : text.length + l.room < bufSize
      · have hlen : (text ++ entryText l.user l.storedName).length = text.length + l.room := by
          rw [List.length_append, l.length_entryText]
        rw [if_pos h, Option.bind_eq_bind, Option.bind_some, ← Nat.add_assoc, ← hlen]
        exact ih (hlen ▸ h)
      · rw [if_neg h]
        exact Or.inl ⟨rfl, by omega⟩

/-- The reply of the server to the client `i` fits into the array with its NUL. -/
def ListFits (s : Server) (i : ℤ) : Prop :=
  ∃ text, mListUser s.head i = some [sendMsg i text] ∧ (terminated text).length ≤ bufSize

/-- The list of users fits when its entries do, behind the five characters in front. -/
theorem list_fits_iff (sBuf : MsgBuf) (ls : List Login) (i : ℤ) :
    ∃ s, Server.logins ⟨sBuf, []⟩ ls = some s ∧
      (ListFits s i ↔ 5 + (ls.map Login.room).sum < bufSize) := by
  obtain ⟨s, hs, hhead⟩ := logins_head ls ⟨sBuf, []⟩
  refine ⟨s, hs, ?_⟩
  rw [ListFits, hhead, List.nil_append, mListUser_eq]
  rcases foldlM_addEntry ls (show ['L', ':', '0', '0', ':'].length < bufSize by decide) with
    ⟨hnone, hlen⟩ | ⟨text, hsome, hlen, hlt⟩
  · rw [hnone]
    have hlen' : bufSize ≤ 5 + (ls.map Login.room).sum := hlen
    refine ⟨?_, fun h => by omega⟩
    rintro ⟨text, h, -⟩
    exact (Option.some_ne_none _ h.symm).elim
  · rw [hsome]
    refine ⟨fun _ => ?_, fun _ => ⟨text, rfl, ?_⟩⟩
    · exact (show text.length = 5 + (ls.map Login.room).sum from hlen) ▸ hlt
    · rw [terminated, List.length_append]
      exact hlt

/-- A client with the id 12 and a long name. -/
def Login.long : Login where
  buf := zeros
  id := 12
  name := List.replicate 19 'a'
  id_lt := by decide
  name_ne_nil := by decide
  length_name_lt := by decide
  nul_notMem := by decide

/-- Eleven such clients are too many. -/
theorem eleven_users : ∃ s, Server.logins ⟨zeros, []⟩ (List.replicate 11 Login.long) = some s ∧
    ¬ ListFits s 12 := by
  have hrun : ((Server.logins ⟨zeros, []⟩ (List.replicate 11 Login.long)).map
      fun s => (mListUser s.head 12).isSome) = some false := by
    decide +kernel
  obtain ⟨s, hs, hnone⟩ := Option.map_eq_some_iff.1 hrun
  refine ⟨s, hs, ?_⟩
  rintro ⟨text, hlist, -⟩
  rw [hlist] at hnone
  exact absurd hnone (by simp)

end Chatroom

end DemoClass
