import DemoClass.Lib.CSearch
import DemoClass.Select.FileServer

/-!
# The requests of the file server (`04File_Server/server.c`)

All clients share `buf`, and `read` puts no NUL behind what it stores.  So `get_filename`
looks at the request and at what earlier requests have left behind it, up to a NUL.

`isolated_iff` says when a request is still served as if it came alone: its name is
shorter than the array `file`, and if it has no name, what is behind it does not help.
-/

namespace DemoClass

namespace Select

namespace FileServer

open CString

/-- `BUF_SIZE` -/
def bufSize : ℕ := 4096

/-- The characters in front of the name. -/
def get : List Char := ['G', 'E', 'T', ' ', '/']

/-- `get_filename`: the buffer after it, and the index of the name. -/
def getFilename (buf : List Char) : Option (List Char × Option ℕ) := do
  match ← strstr buf get with
  | none => return (buf, none)
  | some str_start =>
    let filename := str_start + get.length
    match ← strchr (buf.drop filename) ' ' with
    | none => return (buf, none)
    | some str_end => return (buf.set (filename + str_end) nul, some filename)

/-- `client_handler` from the end of `read` on, which has stored `bytes`, to `file_send2`:
the buffer after it, and the name of the file that is opened.  There is no result when
`file` has no NUL. -/
def handleRequest (buf bytes : List Char) : Option (List Char × Option (List Char)) := do
  let r ← getFilename (write bytes buf)
  match r.2 with
  | none => return (r.1, none)
  | some p =>
    let file ← strncpy 255 (r.1.drop p)
    let name ← str file
    return (r.1, some name)

/-- What `read` stores when it is not at the end. -/
structure Received where
  bytes : List Char
  ne_nil : bytes ≠ []
  length_lt : bytes.length < bufSize

/-- What becomes of the buffer: a request is read, `read` stores nothing, or a connection
is refused. -/
inductive Use where
  | request (r : Received)
  | nothing
  | refused

/-- The warning of a refused connection, where `ol_con` is `MAX_CLI_NUM`. -/
def warning : List Char :=
  "Warn, connect nums has over the limits: ".toList ++ decimal maxCliNum ++ ", max:(".toList ++
    decimal maxCliNum ++ ")\n".toList

/-- The buffer after a use. -/
def Use.apply (buf : List Char) : Use → Option (List Char)
  | .request r => (handleRequest buf r.bytes).map Prod.fst
  | .nothing => some buf
  | .refused => some (snprintf (bufSize - 1) warning buf)

/-- The buffer after its uses so far. -/
def bufAfter (hist : List Use) : Option (List Char) :=
  hist.foldlM Use.apply (List.replicate bufSize nul)

/-! ### What a request asks for -/

/-- `GET /` is followed later by a space. -/
def HasRequest (s : List Char) : Prop := ∃ pre post, s = pre ++ get ++ post ∧ ' ' ∈ post

/-- The characters between the first `GET /` and the next space. -/
def fileName (s : List Char) : Option (List Char) := do
  let i ← firstOcc get s
  let name := s.drop (i + get.length)
  let n ← name.idxOf? ' '
  return name.take n

/-- The request is served as if it came alone: the file is opened whose name stands in it. -/
def Isolated (buf bytes : List Char) : Prop :=
  ∃ buf', handleRequest buf bytes = some (buf', fileName bytes)

/-- What stands behind the request in the buffer, up to a NUL. -/
def leftBehind (buf bytes : List Char) : List Char :=
  (buf.drop bytes.length).takeWhile (· ≠ nul)

variable {s t name buf bytes rest : List Char}

lemma fileName_eq_some (h : fileName s = some name) :
    ∃ pre post, s = pre ++ get ++ (name ++ ' ' :: post) ∧
      firstOcc get s = some pre.length ∧ (name ++ ' ' :: post).idxOf? ' ' = some name.length := by
  simp only [fileName, Option.bind_eq_bind, Option.bind_eq_some_iff, Option.pure_def,
    Option.some.injEq] at h
  obtain ⟨i, hi, n, hn, rfl⟩ := h
  obtain ⟨pre, post, rfl, rfl⟩ := firstOcc_split hi
  have hdrop : (pre ++ get ++ post).drop (pre.length + get.length) = post := by
    rw [← List.length_append, List.drop_left]
  rw [hdrop] at hn ⊢
  obtain ⟨name, post, rfl, rfl⟩ := idxOf?_split hn
  rw [List.take_left]
  exact ⟨pre, post, rfl, hi, hn⟩

lemma fileName_of_split {pre : List Char} (post : List Char)
    (hpre : firstOcc get s = some pre.length) (hs : s = pre ++ get ++ (name ++ ' ' :: post))
    (hname : (name ++ ' ' :: post).idxOf? ' ' = some name.length) : fileName s = some name := by
  have hdrop : s.drop (pre.length + get.length) = name ++ ' ' :: post := by
    rw [hs, ← List.length_append, List.drop_left]
  rw [fileName, hpre]
  simp only [Option.bind_eq_bind, Option.bind_some, hdrop, hname, List.take_left, Option.pure_def]

lemma fileName_append (h : fileName s = some name) (t : List Char) :
    fileName (s ++ t) = some name := by
  obtain ⟨pre, post, hs, hpre, hname⟩ := fileName_eq_some h
  refine fileName_of_split (post ++ t) (firstOcc_append hpre t) ?_ ?_
  · rw [hs]
    simp
  · rw [← List.cons_append, ← List.append_assoc]
    exact idxOf?_append hname t

/-- A request asks for a file when there is a space behind `GET /`. -/
lemma isSome_fileName_iff : (fileName s).isSome ↔ HasRequest s := by
  constructor
  · intro h
    obtain ⟨name, hname⟩ := Option.isSome_iff_exists.1 h
    obtain ⟨pre, post, hs, -, -⟩ := fileName_eq_some hname
    exact ⟨pre, name ++ ' ' :: post, hs, by simp⟩
  · rintro ⟨pre, post, rfl, hspace⟩
    obtain ⟨i, hi, hle⟩ := exists_firstOcc get pre post
    -- the first `GET /` is not behind the one that the space follows
    have hmem : ' ' ∈ (pre ++ get ++ post).drop (i + get.length) := by
      have hdrop : post = ((pre ++ get ++ post).drop (i + get.length)).drop (pre.length - i) := by
        rw [List.drop_drop, show i + get.length + (pre.length - i) = (pre ++ get).length by
          rw [List.length_append]; omega, List.drop_left]
      rw [hdrop] at hspace
      exact List.mem_of_mem_drop hspace
    obtain ⟨n, hn⟩ := Option.isSome_iff_exists.1 (List.isSome_idxOf?.2 hmem)
    rw [fileName, hi]
    simp only [Option.bind_eq_bind, Option.bind_some, hn, Option.pure_def, Option.isSome_some]

/-! ### The buffer -/

/-- The last place of the buffer holds a NUL. -/
def Terminated (buf : List Char) : Prop :=
  ∃ front, buf = front ++ [nul] ∧ front.length + 1 = bufSize

lemma terminated_start : Terminated (List.replicate bufSize nul) := by
  refine ⟨List.replicate (bufSize - 1) nul, ?_, ?_⟩
  · rw [← List.replicate_succ']
    rfl
  · rw [List.length_replicate]
    rfl

/-- No use writes to the last place anything but a NUL. -/
lemma Terminated.write (h : Terminated buf) (hlen : bytes.length < bufSize) :
    Terminated (write bytes buf) := by
  obtain ⟨front, rfl, hfront⟩ := h
  refine ⟨bytes ++ front.drop bytes.length, ?_, ?_⟩
  · rw [CString.write, List.drop_append_of_le_length (by omega), List.append_assoc]
  · rw [List.length_append, List.length_drop]
    omega

lemma Terminated.set (h : Terminated buf) (n : ℕ) : Terminated (buf.set n nul) := by
  obtain ⟨front, rfl, hfront⟩ := h
  by_cases hn : n < front.length
  · exact ⟨front.set n nul, List.set_append_left _ _ hn, by rwa [List.length_set]⟩
  · refine ⟨front, ?_, hfront⟩
    rw [List.set_append_right _ _ (by omega)]
    cases n - front.length <;> rfl

lemma Terminated.getFilename {r : List Char × Option ℕ} (h : Terminated buf)
    (hr : getFilename buf = some r) : Terminated r.1 := by
  simp only [FileServer.getFilename, Option.bind_eq_bind, Option.bind_eq_some_iff] at hr
  obtain ⟨start, -, hr⟩ := hr
  cases start with
  | none =>
      obtain rfl := Option.some.inj hr
      exact h
  | some i =>
      obtain ⟨e, -, hr⟩ := Option.bind_eq_some_iff.1 hr
      cases e with
      | none =>
          obtain rfl := Option.some.inj hr
          exact h
      | some n =>
          obtain rfl := Option.some.inj hr
          exact h.set _

lemma Terminated.handleRequest {r : List Char × Option (List Char)} (h : Terminated buf)
    (hlen : bytes.length < bufSize) (hr : handleRequest buf bytes = some r) : Terminated r.1 := by
  simp only [FileServer.handleRequest, Option.bind_eq_bind, Option.bind_eq_some_iff] at hr
  obtain ⟨⟨buf', p⟩, hget, hr⟩ := hr
  have hbuf' : Terminated buf' := (h.write hlen).getFilename hget
  cases p with
  | none =>
      obtain rfl := Option.some.inj hr
      exact hbuf'
  | some p =>
      simp only [Option.bind_eq_some_iff, Option.pure_def, Option.some.injEq] at hr
      obtain ⟨file, -, name, -, rfl⟩ := hr
      exact hbuf'

lemma length_warning : warning.length < bufSize - 1 := by decide +kernel

lemma Terminated.apply {u : Use} (h : Terminated buf) (hu : u.apply buf = some t) :
    Terminated t := by
  cases u with
  | request r =>
      obtain ⟨r', hr', rfl⟩ := Option.map_eq_some_iff.1 hu
      exact h.handleRequest r.length_lt hr'
  | nothing =>
      obtain rfl := Option.some.inj hu
      exact h
  | refused =>
      obtain rfl := Option.some.inj hu
      have hw := length_warning
      refine h.write ?_
      rw [terminated, List.length_append, List.length_take, List.length_singleton]
      omega

/-- The buffer holds a NUL at its end after every history. -/
lemma terminated_bufAfter {hist : List Use} (h : bufAfter hist = some buf) : Terminated buf := by
  rw [bufAfter] at h
  generalize hstart : List.replicate bufSize nul = start at h
  have hs : Terminated start := hstart ▸ terminated_start
  clear hstart
  induction hist generalizing start with
  | nil =>
      obtain rfl := Option.some.inj h
      exact hs
  | cons u hist ih =>
      rw [List.foldlM_cons, Option.bind_eq_bind, Option.bind_eq_some_iff] at h
      obtain ⟨t, ht, h⟩ := h
      exact ih t h (hs.apply ht)

/-! ### The handler -/

/-- The string in the buffer is the request and what is left behind it. -/
lemma write_eq (h : Terminated buf) (hlen : bytes.length < bufSize) :
    ∃ rest, write bytes buf = bytes ++ leftBehind buf bytes ++ nul :: rest := by
  obtain ⟨front, rfl, hfront⟩ := h
  obtain ⟨rest, hrest⟩ : ∃ rest, (front ++ [nul]).drop bytes.length =
      leftBehind (front ++ [nul]) bytes ++ nul :: rest := by
    have hmem : nul ∈ (front ++ [nul]).drop bytes.length := by
      rw [List.drop_append_of_le_length (by omega)]
      simp
    exact exists_takeWhile_append hmem
  refine ⟨rest, ?_⟩
  rw [CString.write, hrest, List.append_assoc]

/-- A buffer without a request. -/
lemma getFilename_none (hs : nul ∉ s) (h : fileName s = none) :
    getFilename (s ++ nul :: rest) = some (s ++ nul :: rest, none) := by
  rw [getFilename, strstr, str_append_nul hs]
  simp only [Option.bind_eq_bind, Option.map_some, Option.bind_some]
  cases hocc : firstOcc get s with
  | none => rfl
  | some i =>
      have hle : i + get.length ≤ s.length := by
        obtain ⟨pre, post, rfl, rfl⟩ := firstOcc_split hocc
        simp
      have hnone : (s.drop (i + get.length)).idxOf? ' ' = none := by
        rw [fileName, hocc] at h
        rcases hn : (s.drop (i + get.length)).idxOf? ' ' with _ | n
        · rfl
        · simp [hn] at h
      have hstr : str (s.drop (i + get.length) ++ nul :: rest) = some (s.drop (i + get.length)) :=
        str_append_nul (fun hmem => hs (List.mem_of_mem_drop hmem)) rest
      simp only [List.drop_append_of_le_length hle, strchr, hstr, Option.map_some, hnone,
        Option.bind_some]
      rfl

/-- The name is cut off by a NUL. -/
lemma getFilename_some (rest : List Char) (hs : nul ∉ s) (h : fileName s = some name) :
    ∃ buf' p rest', getFilename (s ++ nul :: rest) = some (buf', some p) ∧
      buf'.drop p = name ++ nul :: rest' := by
  obtain ⟨pre, post, rfl, hocc, hname⟩ := fileName_eq_some h
  have hpost : nul ∉ name ++ ' ' :: post := fun hmem => hs (List.mem_append_right _ hmem)
  have hbuf : pre ++ get ++ (name ++ ' ' :: post) ++ nul :: rest =
      pre ++ get ++ (name ++ ' ' :: post ++ nul :: rest) := by
    rw [List.append_assoc]
  have hset : (pre ++ get ++ (name ++ ' ' :: post ++ nul :: rest)).set
      (pre.length + get.length + name.length) nul =
        pre ++ get ++ (name ++ nul :: (post ++ nul :: rest)) := by
    rw [← List.length_append, List.set_append_right _ _ (by omega), Nat.add_sub_cancel_left]
    simp
  refine ⟨pre ++ get ++ (name ++ nul :: (post ++ nul :: rest)), pre.length + get.length,
    post ++ nul :: rest, ?_, ?_⟩
  · have hdrop : (pre ++ get ++ (name ++ ' ' :: post ++ nul :: rest)).drop
        (pre.length + get.length) = name ++ ' ' :: post ++ nul :: rest := by
      rw [← List.length_append, List.drop_left]
    rw [getFilename, strstr, str_append_nul hs]
    simp only [Option.bind_eq_bind, Option.map_some, Option.bind_some, hocc, hbuf, hdrop, strchr,
      str_append_nul hpost, hname, hset, Option.pure_def]
  · rw [← List.length_append, List.drop_left]

lemma handleRequest_none (hw : write bytes buf = s ++ nul :: rest) (hs : nul ∉ s)
    (h : fileName s = none) : handleRequest buf bytes = some (write bytes buf, none) := by
  rw [handleRequest, hw, getFilename_none hs h]
  rfl

/-- A name that is too long leaves `file` without a NUL. -/
lemma handleRequest_some (hw : write bytes buf = s ++ nul :: rest) (hs : nul ∉ s)
    (h : fileName s = some name) :
    (name.length < 255 ∧ ∃ buf', handleRequest buf bytes = some (buf', some name)) ∨
      (255 ≤ name.length ∧ handleRequest buf bytes = none) := by
  obtain ⟨buf', p, rest', hget, hdrop⟩ := getFilename_some rest hs h
  have hname : nul ∉ name := by
    obtain ⟨pre, post, rfl, -, -⟩ := fileName_eq_some h
    exact fun hmem => hs (by simp [hmem])
  by_cases hlen : name.length < 255
  · refine Or.inl ⟨hlen, buf', ?_⟩
    obtain ⟨k, hk⟩ : ∃ k, 255 - name.length = k + 1 := ⟨255 - name.length - 1, by omega⟩
    have hstr : str (name ++ List.replicate (255 - name.length) nul) = some name := by
      rw [hk, List.replicate_succ]
      exact str_append_nul hname _
    rw [handleRequest, hw, hget]
    simp only [Option.bind_eq_bind, Option.bind_some, hdrop, strncpy_append_nul hname hlen, hstr,
      Option.pure_def]
  · refine Or.inr ⟨by omega, ?_⟩
    have hstr : str (name.take 255) = none :=
      if_neg fun hmem => hname (List.mem_of_mem_take hmem)
    rw [handleRequest, hw, hget]
    simp only [Option.bind_eq_bind, Option.bind_some, hdrop,
      strncpy_append_of_le hname (not_lt.1 hlen), hstr, Option.bind_none]

/-- After every history, a request without NUL is served as if it came alone just when its
name fits into `file`, and what is left behind it does not complete it. -/
theorem isolated_iff {hist : List Use} (hbuf : bufAfter hist = some buf) (r : Received)
    (hr : nul ∉ r.bytes) :
    Isolated buf r.bytes ↔ (∀ name, fileName r.bytes = some name → name.length < 255) ∧
      (HasRequest (r.bytes ++ leftBehind buf r.bytes) → HasRequest r.bytes) := by
  obtain ⟨rest, hw⟩ := write_eq (terminated_bufAfter hbuf) r.length_lt
  have hs : nul ∉ r.bytes ++ leftBehind buf r.bytes := by
    rw [List.mem_append, not_or]
    refine ⟨hr, fun hmem => ?_⟩
    simpa using List.mem_takeWhile_imp hmem
  rw [Isolated, ← isSome_fileName_iff, ← isSome_fileName_iff]
  cases hf : fileName r.bytes with
  | some name =>
      have hf' := fileName_append hf (leftBehind buf r.bytes)
      rcases handleRequest_some hw hs hf' with ⟨hlen, hh⟩ | ⟨hlen, hnone⟩
      · simp [hh, hlen]
      · simp [hnone, hlen]
  | none =>
      cases hf' : fileName (r.bytes ++ leftBehind buf r.bytes) with
      | none => simp [handleRequest_none hw hs hf']
      | some name =>
          rcases handleRequest_some hw hs hf' with ⟨-, buf', hh⟩ | ⟨-, hnone⟩
          · simp [hh]
          · simp [hnone]

/-- A request for the file `one`. -/
def requestOne : Received where
  bytes := ['G', 'E', 'T', ' ', '/', 'o', 'n', 'e', ' ', 'a', ' ', 'b']
  ne_nil := by decide
  length_lt := by decide

/-- A shorter request, without a space behind the name. -/
def requestTwo : Received where
  bytes := ['G', 'E', 'T', ' ', '/', 't', 'w', 'o', '.', 'x']
  ne_nil := by decide
  length_lt := by decide

/-- After the request for `one`. -/
theorem isolated_iff_two : ∃ buf, bufAfter [.request requestOne] = some buf ∧
    (Isolated buf requestTwo.bytes ↔
      (∀ name, fileName requestTwo.bytes = some name → name.length < 255) ∧
        (HasRequest (requestTwo.bytes ++ leftBehind buf requestTwo.bytes) →
          HasRequest requestTwo.bytes)) := by
  have hserved : (bufAfter [.request requestOne]).isSome = true := by decide +kernel
  obtain ⟨buf, hbuf⟩ := Option.isSome_iff_exists.1 hserved
  exact ⟨buf, hbuf, isolated_iff hbuf requestTwo (by decide)⟩

/-- The space behind it is that of the request before. -/
theorem not_isolated_two : ∃ buf, bufAfter [.request requestOne] = some buf ∧
    (handleRequest buf requestTwo.bytes).map Prod.snd = some (some ['t', 'w', 'o', '.', 'x']) ∧
      fileName requestTwo.bytes = none ∧ ¬ Isolated buf requestTwo.bytes := by
  have hrun : (bufAfter [.request requestOne]).map
      (fun buf => (handleRequest buf requestTwo.bytes).map Prod.snd) =
        some (some (some ['t', 'w', 'o', '.', 'x'])) := by
    decide +kernel
  obtain ⟨buf, hbuf, hname⟩ := Option.map_eq_some_iff.1 hrun
  have hnone : fileName requestTwo.bytes = none := by decide
  refine ⟨buf, hbuf, hname, hnone, ?_⟩
  rintro ⟨buf', h⟩
  rw [h, hnone] at hname
  exact absurd hname (by simp)

end FileServer

end Select

end DemoClass
