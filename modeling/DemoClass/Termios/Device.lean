import DemoClass.Lib.Comp
import DemoClass.Lib.CString

/-!
# Reading and writing a serial line (`term.c`)

`read` and `write` of the device are given by what their calls come to, one after the
other.  `term_read_dev` and `term_write_dev` repeat a call that was interrupted, and the
functions above them call them in a loop.

A block is read as it is delivered (`termReadNbytes_ends`).  A block is written only if
the device takes it at once (`writesAll_iff`), since `term_write_dev` takes a short count
for a failure.  A line is read as it is delivered if no call times out
(`readsLine_iff`), since `term_read_line` stores the old character then.
-/

namespace DemoClass

namespace Term

open CString

/-! ### Calls that are interrupted -/

/-- What a call comes to. -/
inductive Transfer (α : Type) where
  | eintr
  | failed
  | done (a : α)
deriving DecidableEq, Repr

/-- Why a function does not return: it waits for a call, with what was transferred by
then, or it leaves an array. -/
inductive Stop where
  | waiting (mem : List Char)
  | outOfBounds
deriving DecidableEq, Repr

section Retry

variable {α : Type} {os rest : List (Transfer α)} {a : α}

/-- The first call that is not interrupted, with the calls behind it: a failure or what is
transferred. -/
def retry : List (Transfer α) → Option (Option α × List (Transfer α))
  | [] => none
  | .eintr :: os => retry os
  | .failed :: os => some (none, os)
  | .done a :: os => some (some a, os)

lemma retry_replicate (k : ℕ) (os : List (Transfer α)) :
    retry (List.replicate k .eintr ++ os) = retry os := by
  induction k with
  | zero => rfl
  | succ k ih => exact ih

lemma retry_eq_some_iff :
    retry os = some (some a, rest) ↔ ∃ k, os = List.replicate k .eintr ++ .done a :: rest := by
  constructor
  · intro h
    induction os with
    | nil => cases h
    | cons o os ih =>
        cases o with
        | eintr =>
            obtain ⟨k, rfl⟩ := ih h
            exact ⟨k + 1, rfl⟩
        | failed => cases h
        | done b =>
            cases h
            exact ⟨0, rfl⟩
  · rintro ⟨k, rfl⟩
    exact retry_replicate k _

end Retry

/-! ### The functions -/

/-- The device that is written to: what the calls of `write` come to, what it has accepted,
and how often its output was flushed. -/
structure Tty where
  writes : List (Transfer ℕ)
  accepted : List Char
  flushes : ℕ
deriving DecidableEq, Repr

/-- `term_write_dev` -/
def termWriteDev (t : Tty) (buf : List Char) (len : ℤ) : Except Stop (ℤ × Tty) :=
  if buf.length < len then .error .outOfBounds
  else match retry t.writes with
    | none => .error (.waiting t.accepted)
    | some (none, ws) => .ok (-1, { t with writes := ws })
    | some (some n, ws) =>
      let t : Tty := { t with writes := ws, accepted := t.accepted ++ buf.take n }
      if n = len then .ok (n, t) else .ok (-1, { t with flushes := t.flushes + 1 })

/-- A round of the loop of `term_write_nbytes`, with the device, `ptr` and `nleft`. -/
def writeBody (len : ℤ) (w : Tty × List Char × ℤ) :
    Except Stop ((Tty × List Char × ℤ) ⊕ (ℤ × Tty)) :=
  if 0 < w.2.2 then do
    let r ← termWriteDev w.1 w.2.1 w.2.2
    if r.1 < 0 then return .inr (-1, r.2)
    else if r.1 = 0 then return .inr (len - w.2.2, r.2)
    else return .inl (r.2, w.2.1.drop r.1.toNat, w.2.2 - r.1)
  else return .inr (len - w.2.2, w.1)

/-- `term_write_nbytes` -/
def termWriteNbytes (t : Tty) (buf : List Char) (len : ℤ) : Comp Stop (ℤ × Tty) :=
  Comp.loop (fun w => Comp.ofExcept (writeBody len w)) (t, buf, len)

/-- Store characters in an array from an index on. -/
def storeAt (ptr : ℕ) (cs buf : List Char) : List Char := buf.take ptr ++ write cs (buf.drop ptr)

/-- `term_read_dev` into an array from an index on: what is returned, the array, and the
calls of `read` still to come. -/
def termReadDev (reads : List (Transfer (List Char))) (buf : List Char) (ptr : ℕ) :
    Except Stop (ℤ × List Char × List (Transfer (List Char))) :=
  match retry reads with
  | none => .error (.waiting buf)
  | some (none, os) => .ok (-1, buf, os)
  | some (some cs, os) =>
    if ptr + cs.length ≤ buf.length then .ok (cs.length, storeAt ptr cs buf, os)
    else .error .outOfBounds

/-- The variables of `term_read_nbytes`. -/
structure Reader where
  reads : List (Transfer (List Char))
  buf : List Char
  ptr : ℕ
  nleft : ℤ
deriving DecidableEq, Repr

/-- A round of its loop.  It is left with the return value, the array, and the calls still
to come. -/
def readBody (len : ℤ) (w : Reader) :
    Except Stop (Reader ⊕ (ℤ × List Char × List (Transfer (List Char)))) :=
  if 0 < w.nleft then do
    let r ← termReadDev w.reads w.buf w.ptr
    if r.1 < 0 then return .inr r
    else if r.1 = 0 then return .inr (len - w.nleft, r.2)
    else return .inl ⟨r.2.2, r.2.1, w.ptr + r.1.toNat, w.nleft - r.1⟩
  else return .inr (len - w.nleft, w.buf, w.reads)

/-- `term_read_nbytes` -/
def termReadNbytes (reads : List (Transfer (List Char))) (buf : List Char) (len : ℤ) :
    Comp Stop (ℤ × List Char × List (Transfer (List Char))) :=
  Comp.loop (fun w => Comp.ofExcept (readBody len w)) ⟨reads, buf, 0, len⟩

/-- The variables of `term_read_line`. -/
structure LineReader where
  reads : List (Transfer (List Char))
  buf : List Char
  count : ℕ
  tmp : Char
deriving DecidableEq, Repr

/-- Whether a character ends a line. -/
def isEol (c : Char) : Bool := c = '\n' ∨ c = '\r'

/-- A round of its loop.  `tmp` keeps its character when `read` stores none. -/
def lineBody (max : ℤ) (w : LineReader) : Except Stop (LineReader ⊕ (ℤ × List Char)) :=
  match termReadDev w.reads [w.tmp] 0 with
  -- while it waits, the array is what was stored so far
  | .error (.waiting _) => .error (.waiting w.buf)
  | .error .outOfBounds => .error .outOfBounds
  | .ok (n, mem, os) =>
    if n < 0 then .ok (.inr (-1, w.buf))
    else if w.count < w.buf.length then
      let tmp := mem.headD w.tmp
      let buf := w.buf.set w.count tmp
      if isEol tmp then .ok (.inr (0, buf))
      else if ((w.count + 1 : ℕ) : ℤ) = max then .ok (.inr (0, buf))
      else .ok (.inl ⟨os, buf, w.count + 1, tmp⟩)
    else .error .outOfBounds

/-- `term_read_line` -/
def termReadLine (reads : List (Transfer (List Char))) (buf : List Char) (max : ℤ) :
    Comp Stop (ℤ × List Char) :=
  Comp.loop (fun w => Comp.ofExcept (lineBody max w)) ⟨reads, buf, 0, nul⟩

/-! ### Writing a block -/

/-- The device accepts the first `len` characters of `buf`, and `term_write_nbytes` returns
`len`. -/
def WritesAll (ws : List (Transfer ℕ)) (buf : List Char) (len : ℕ) : Prop :=
  ∃ t, (termWriteNbytes ⟨ws, [], 0⟩ buf len).Ends (.ok (len, t)) ∧ t.accepted = buf.take len

variable {ws : List (Transfer ℕ)} {buf : List Char} {len : ℕ} {t : Tty}

lemma writeBody_done {ptr : List Char} {nleft l : ℤ} (h : ¬ 0 < nleft) :
    writeBody l (t, ptr, nleft) = .ok (.inr (l - nleft, t)) := if_neg h

lemma writeBody_dev (t : Tty) (ptr : List Char) (l : ℤ) {nleft : ℤ} (h : 0 < nleft) :
    writeBody l (t, ptr, nleft) = (termWriteDev t ptr nleft).map fun r =>
      if r.1 < 0 then .inr (-1, r.2)
      else if r.1 = 0 then .inr (l - nleft, r.2)
      else .inl (r.2, ptr.drop r.1.toNat, nleft - r.1) := by
  rw [writeBody, if_pos h]
  rcases termWriteDev t ptr nleft with e | r
  · rfl
  · show (if r.1 < 0 then _ else _ : Except Stop _) = _
    rw [Except.map]
    split_ifs <;> rfl

/-- `term_write_dev` returns its length when the call that is not interrupted takes it all,
and a negative number otherwise. -/
lemma termWriteDev_cases (ws : List (Transfer ℕ)) (hlen : len ≤ buf.length) :
    (∃ k rest, ws = List.replicate k .eintr ++ .done len :: rest ∧
        termWriteDev ⟨ws, [], 0⟩ buf len = .ok (len, ⟨rest, buf.take len, 0⟩)) ∨
      (¬ ∃ k rest, ws = List.replicate k .eintr ++ .done len :: rest) ∧
        ((∃ t, termWriteDev ⟨ws, [], 0⟩ buf len = .ok (-1, t)) ∨
          ∃ e, termWriteDev ⟨ws, [], 0⟩ buf len = .error e) := by
  have hin : ¬ (buf.length : ℤ) < len := by omega
  rw [termWriteDev, if_neg hin]
  rcases hr : retry ws with _ | ⟨_ | n, rest⟩
  · refine Or.inr ⟨?_, Or.inr ⟨_, rfl⟩⟩
    rintro ⟨k, rest, hws⟩
    rw [retry_eq_some_iff.2 ⟨k, hws⟩] at hr
    cases hr
  · refine Or.inr ⟨?_, Or.inl ⟨_, rfl⟩⟩
    rintro ⟨k, rest', hws⟩
    rw [retry_eq_some_iff.2 ⟨k, hws⟩] at hr
    cases hr
  · by_cases hn : n = len
    · subst hn
      obtain ⟨k, hws⟩ := retry_eq_some_iff.1 hr
      exact Or.inl ⟨k, rest, hws, by simp⟩
    · refine Or.inr ⟨?_, Or.inl ?_⟩
      · rintro ⟨k, rest', hws⟩
        rw [retry_eq_some_iff.2 ⟨k, hws⟩] at hr
        obtain ⟨rfl, -⟩ : len = n ∧ rest' = rest := by simpa using hr
        exact hn rfl
      · have hn' : ¬ (n : ℤ) = len := by omega
        exact ⟨_, if_neg hn'⟩

/-- A block is written as a whole just when it is empty, or the first call that is not
interrupted takes all of it. -/
theorem writesAll_iff (hlen : len ≤ buf.length) :
    WritesAll ws buf len ↔
      len = 0 ∨ ∃ k rest, ws = List.replicate k .eintr ++ .done len :: rest := by
  rcases Nat.eq_zero_or_pos len with rfl | hpos
  · refine iff_of_true ⟨⟨ws, [], 0⟩, Comp.Ends.loop_inr ?_, rfl⟩ (Or.inl rfl)
    have hdone : writeBody (0 : ℕ) (⟨ws, [], 0⟩, buf, ((0 : ℕ) : ℤ)) =
        .ok (.inr ((0 : ℕ), ⟨ws, [], 0⟩)) := rfl
    exact Comp.ends_ofExcept.2 hdone.symm
  · have hbody := writeBody_dev ⟨ws, [], 0⟩ buf len (show (0 : ℤ) < len by omega)
    have hne : len ≠ 0 := by omega
    rcases termWriteDev_cases ws hlen with ⟨k, rest, hws, hdev⟩ | ⟨hno, hdev⟩
    · refine iff_of_true ⟨⟨rest, buf.take len, 0⟩, ?_, rfl⟩ (Or.inr ⟨k, rest, hws⟩)
      have hneg : ¬ (len : ℤ) < 0 := by omega
      have hnext : writeBody len (⟨ws, [], 0⟩, buf, (len : ℤ)) =
          .ok (.inl (⟨rest, buf.take len, 0⟩, buf.drop len, 0)) := by
        rw [hbody, hdev]
        simp [Except.map, hneg, hne]
      have hend : writeBody len (⟨rest, buf.take len, 0⟩, buf.drop len, (0 : ℤ)) =
          .ok (.inr ((len : ℤ), ⟨rest, buf.take len, 0⟩)) := by
        rw [writeBody_done (by decide), Int.sub_zero]
      exact Comp.Ends.loop_inl (Comp.ends_ofExcept.2 hnext.symm)
        (Comp.Ends.loop_inr (Comp.ends_ofExcept.2 hend.symm))
    · refine iff_of_false ?_ fun h => hno (h.resolve_left hne)
      rintro ⟨t, hends, -⟩
      rcases hdev with ⟨t', hdev⟩ | ⟨e, hdev⟩
      · have hfail : writeBody len (⟨ws, [], 0⟩, buf, (len : ℤ)) = .ok (.inr (-1, t')) := by
          rw [hbody, hdev]
          rfl
        have hends' := Comp.Ends.unique
          (Comp.Ends.loop_inr (Comp.ends_ofExcept.2 hfail.symm)) hends
        have hret : (-1 : ℤ) = len := congrArg Prod.fst (Except.ok.inj hends')
        omega
      · have hfail : writeBody len (⟨ws, [], 0⟩, buf, (len : ℤ)) = .error e := by
          rw [hbody, hdev]
          rfl
        have hends' := Comp.Ends.unique
          (Comp.Ends.loop_fault (Comp.ends_ofExcept.2 hfail.symm)) hends
        cases hends'

theorem writesAll_iff_two :
    WritesAll [.eintr, .done 2] ['h', 'i'] 2 ↔
      2 = 0 ∨ ∃ k rest, [.eintr, .done 2] = List.replicate k Transfer.eintr ++ .done 2 :: rest :=
  writesAll_iff (by decide)

/-- The device takes the two characters in two calls. -/
theorem not_writesAll_short : ¬ WritesAll [.done 1, .done 1] ['h', 'i'] 2 := by
  rintro ⟨t, hends, -⟩
  have hfail : writeBody 2 (⟨[.done 1, .done 1], [], 0⟩, ['h', 'i'], (2 : ℤ)) =
      .ok (.inr (-1, ⟨[.done 1], ['h'], 1⟩)) := by decide
  have hends' := Comp.Ends.unique (Comp.Ends.loop_inr (Comp.ends_ofExcept.2 hfail.symm)) hends
  cases hends'

/-! ### Reading a block -/

/-- The characters that a call of `read` stores. -/
def Transfer.text : Transfer (List Char) → List Char
  | .done cs => cs
  | _ => []

/-- The characters that the calls deliver. -/
def delivered (os : List (Transfer (List Char))) : List Char := os.flatMap Transfer.text

/-- A call after which `term_read_nbytes` goes on. -/
def Transfer.GoesOn (o : Transfer (List Char)) : Prop := o = .eintr ∨ ∃ cs, o = .done cs ∧ cs ≠ []

/-- No call that is made delivers more characters than it is asked for, when the first one is
asked for `n` and the next ones for what is left. -/
def Fits : ℕ → List (Transfer (List Char)) → Prop
  | _, [] => True
  | n, .eintr :: os => Fits n os
  | _, .failed :: _ => True
  | n, .done cs :: os => n = 0 ∨ cs = [] ∨ cs.length ≤ n ∧ Fits (n - cs.length) os

/-- How the reading of `len` characters into `buf` ends when `text` was delivered and the calls
`rest` are to come. -/
inductive BlockEnd (buf : List Char) (len : ℕ) (text : List Char) :
    List (Transfer (List Char)) → Except Stop (ℤ × List Char × List (Transfer (List Char))) → Prop
  | full (rest : List (Transfer (List Char))) : text.length = len →
      BlockEnd buf len text rest (.ok (len, write text buf, rest))
  | timeout (rest : List (Transfer (List Char))) : text.length < len →
      BlockEnd buf len text (.done [] :: rest) (.ok (text.length, write text buf, rest))
  | failed (rest : List (Transfer (List Char))) : text.length < len →
      BlockEnd buf len text (.failed :: rest) (.ok (-1, write text buf, rest))
  | waiting : text.length < len → BlockEnd buf len text [] (.error (.waiting (write text buf)))

variable {os rest : List (Transfer (List Char))} {text cs : List Char}

/-- Storing behind what was stored. -/
lemma storeAt_write :
    storeAt text.length cs (write text buf) = write (text ++ cs) buf := by
  rw [storeAt, write, List.take_left, List.drop_left, write, write, List.drop_drop,
    List.length_append, List.append_assoc]

/-- The loop when `text` is stored. -/
def reader (len : ℕ) (buf text : List Char) (os : List (Transfer (List Char))) : Reader :=
  ⟨os, write text buf, text.length, len - text.length⟩

lemma readBody_full (h : text.length = len) :
    readBody len (reader len buf text os) = .ok (.inr (len, write text buf, os)) := by
  have hn : ¬ (0 : ℤ) < len - text.length := by omega
  rw [reader, readBody, if_neg hn, h, Int.sub_self, Int.sub_zero]
  rfl

lemma readBody_dev (h : text.length < len) :
    readBody len (reader len buf text os) =
      (termReadDev os (write text buf) text.length).map fun r =>
        if r.1 < 0 then .inr r
        else if r.1 = 0 then .inr (text.length, r.2)
        else .inl ⟨r.2.2, r.2.1, text.length + r.1.toNat, len - text.length - r.1⟩ := by
  have hn : (0 : ℤ) < len - text.length := by omega
  have hcount : (len : ℤ) - (len - text.length) = text.length := by omega
  rw [reader, readBody, if_pos hn]
  rcases termReadDev os (write text buf) text.length with e | r
  · rfl
  · show (if r.1 < 0 then _ else _ : Except Stop _) = _
    rw [Except.map, hcount]
    split_ifs <;> rfl

/-- `read` stores behind what was stored. -/
lemma termReadDev_done (h : text.length + cs.length ≤ buf.length) :
    termReadDev (.done cs :: os) (write text buf) text.length =
      .ok (cs.length, write (text ++ cs) buf, os) := by
  have hin : text.length + cs.length ≤ (write text buf).length := by
    rw [length_write (by omega)]
    exact h
  rw [termReadDev, retry]
  simp only [if_pos hin, storeAt_write]

/-- The next characters are stored behind the others. -/
lemma readBody_done (h : text.length < len) (hlen : len ≤ buf.length) (hcs : cs ≠ [])
    (hfit : text.length + cs.length ≤ len) :
    readBody len (reader len buf text (.done cs :: os)) =
      .ok (.inl (reader len buf (text ++ cs) os)) := by
  have hpos := List.length_pos_iff.2 hcs
  have hneg : ¬ (cs.length : ℤ) < 0 := by omega
  have hzero : ¬ (cs.length : ℤ) = 0 := by omega
  have hleft : (len : ℤ) - text.length - cs.length = len - (text ++ cs).length := by
    rw [List.length_append]
    omega
  rw [readBody_dev h, termReadDev_done (by omega), Except.map, if_neg hneg, if_neg hzero, hleft,
    reader, List.length_append, Int.toNat_natCast]

lemma readBody_timeout (h : text.length < len) (hlen : len ≤ buf.length) :
    readBody len (reader len buf text (.done [] :: os)) =
      .ok (.inr (text.length, write text buf, os)) := by
  have hin : text.length + ([] : List Char).length ≤ buf.length := by
    rw [List.length_nil]
    omega
  rw [readBody_dev h, termReadDev_done hin, List.append_nil]
  rfl

/-- A round in which the loop is left. -/
lemma reader_left {r : Except Stop (ℤ × List Char × List (Transfer (List Char)))}
    (hbody : readBody len (reader len buf text os) = r.map Sum.inr)
    (hr : BlockEnd buf len text os r) :
    ∃ used rest r, os = used ++ rest ∧ (∀ o ∈ used, o.GoesOn) ∧
      (Comp.loop (fun w => Comp.ofExcept (readBody len w)) (reader len buf text os)).Ends r ∧
        BlockEnd buf len (text ++ delivered used) rest r := by
  refine ⟨[], os, r, rfl, by simp, ?_, ?_⟩
  · cases r with
    | error e => exact Comp.Ends.loop_fault (Comp.ends_ofExcept.2 hbody.symm)
    | ok r => exact Comp.Ends.loop_inr (Comp.ends_ofExcept.2 hbody.symm)
  · rw [delivered, List.flatMap_nil, List.append_nil]
    exact hr

/-- The loop, when `text` is stored. -/
lemma reader_ends (text : List Char) (hlen : len ≤ buf.length) (htext : text.length ≤ len)
    (hfits : Fits (len - text.length) os) :
    ∃ used rest r, os = used ++ rest ∧ (∀ o ∈ used, o.GoesOn) ∧
      (Comp.loop (fun w => Comp.ofExcept (readBody len w)) (reader len buf text os)).Ends r ∧
        BlockEnd buf len (text ++ delivered used) rest r := by
  induction os generalizing text with
  | nil =>
      rcases htext.eq_or_lt with hfull | hlt
      · exact reader_left (readBody_full hfull) (.full [] hfull)
      · exact reader_left (readBody_dev hlt) (.waiting hlt)
  | cons o os ih =>
      rcases htext.eq_or_lt with hfull | hlt
      · exact reader_left (readBody_full hfull) (.full (o :: os) hfull)
      cases o with
      | eintr =>
          obtain ⟨used, rest, r, rfl, hused, hends, hr⟩ := ih text htext hfits
          refine ⟨.eintr :: used, rest, r, rfl, List.forall_mem_cons.2 ⟨Or.inl rfl, hused⟩, ?_, hr⟩
          -- the round is the one without the interrupted call
          have hbody : readBody len (reader len buf text (.eintr :: (used ++ rest))) =
              readBody len (reader len buf text (used ++ rest)) := by
            rw [readBody_dev hlt, readBody_dev hlt]
            rfl
          exact (Comp.loop_ends_congr (congrArg Comp.ofExcept hbody)).2 hends
      | failed => exact reader_left (readBody_dev hlt) (.failed os hlt)
      | done cs =>
          by_cases hcs : cs = []
          · subst hcs
            exact reader_left (readBody_timeout hlt hlen) (.timeout os hlt)
          · have hne : len - text.length ≠ 0 := by omega
            obtain ⟨hfit, hrest⟩ := (hfits.resolve_left hne).resolve_left hcs
            have hlen' : (text ++ cs).length = text.length + cs.length := List.length_append
            have hsub : len - text.length - cs.length = len - (text ++ cs).length := by omega
            obtain ⟨used, rest, r, rfl, hused, hends, hr⟩ :=
              ih (text ++ cs) (by omega) (hsub ▸ hrest)
            have hgoes : (Transfer.done cs).GoesOn := Or.inr ⟨cs, rfl, hcs⟩
            have hdel : delivered (.done cs :: used) = cs ++ delivered used := rfl
            refine ⟨.done cs :: used, rest, r, rfl, List.forall_mem_cons.2 ⟨hgoes, hused⟩, ?_, ?_⟩
            · exact Comp.Ends.loop_inl
                (Comp.ends_ofExcept.2 (readBody_done hlt hlen hcs (by omega)).symm) hends
            · rw [hdel, ← List.append_assoc]
              exact hr

/-- A block is read as it is delivered.  The calls that are used up deliver at most `len`
characters, which are stored from the start of the array on; it ends when all are there, with
a call that delivers none, or with a call that fails. -/
theorem termReadNbytes_ends (hlen : len ≤ buf.length) (hfits : Fits len os) :
    ∃ used rest r, os = used ++ rest ∧ (∀ o ∈ used, o.GoesOn) ∧
      (termReadNbytes os buf len).Ends r ∧ BlockEnd buf len (delivered used) rest r := by
  have hstart : reader len buf [] os = ⟨os, buf, 0, len⟩ := by simp [reader, write]
  have hends := reader_ends [] hlen (Nat.zero_le len) hfits
  rw [hstart] at hends
  exact hends

theorem termReadNbytes_ends_two :
    ∃ used rest r, [Transfer.eintr, .done ['h'], .done []] = used ++ rest ∧
      (∀ o ∈ used, o.GoesOn) ∧
        (termReadNbytes [.eintr, .done ['h'], .done []] ['x', 'y', 'z'] (2 : ℕ)).Ends r ∧
          BlockEnd ['x', 'y', 'z'] 2 (delivered used) rest r :=
  termReadNbytes_ends (by decide) (by simp [Fits])

/-! ### Reading a line -/

/-- A call of `read` for one character in front of the end of the line. -/
def Transfer.InLine (o : Transfer (List Char)) : Prop :=
  o = .eintr ∨ o = .done [] ∨ ∃ c, o = .done [c] ∧ isEol c = false

/-- Calls for one character that deliver a line. -/
structure Line where
  pre : List (Transfer (List Char))
  eol : Char
  post : List (Transfer (List Char))
  inLine : ∀ o ∈ pre, o.InLine
  isEol_eol : isEol eol = true

namespace Line

def reads (l : Line) : List (Transfer (List Char)) := l.pre ++ .done [l.eol] :: l.post

/-- The characters of the line, with its end. -/
def chars (l : Line) : List Char := delivered l.pre ++ [l.eol]

end Line

/-- `term_read_line` returns 0, with the line at the start of the array. -/
def ReadsLine (l : Line) (buf : List Char) (max : ℕ) : Prop :=
  (termReadLine l.reads buf max).Ends (.ok (0, write l.chars buf))

/-- What is stored when the calls are made: a call that delivers nothing stores the old
character once more. -/
def stored (tmp : Char) : List (Transfer (List Char)) → List Char
  | [] => []
  | .done cs :: os => cs.headD tmp :: stored (cs.headD tmp) os
  | _ :: os => stored tmp os

variable {tmp : Char} {pre post : List (Transfer (List Char))} {max : ℕ}

lemma isEol_headD (h : (Transfer.done cs).InLine) (htmp : isEol tmp = false) :
    cs.length ≤ 1 ∧ isEol (cs.headD tmp) = false := by
  rcases h with h | h | ⟨c, h, hc⟩
  · cases h
  · cases h
    exact ⟨Nat.zero_le 1, htmp⟩
  · cases h
    exact ⟨Nat.le_refl 1, hc⟩

/-- The end of the line is not among what is stored. -/
lemma isEol_of_mem_stored (hpre : ∀ o ∈ pre, o.InLine) (htmp : isEol tmp = false) :
    ∀ c ∈ stored tmp pre, isEol c = false := by
  induction pre generalizing tmp with
  | nil => simp [stored]
  | cons o pre ih =>
      obtain ⟨ho, hpre'⟩ := List.forall_mem_cons.1 hpre
      cases o with
      | eintr => exact ih hpre' htmp
      | failed => rcases ho with h | h | ⟨c, h, -⟩ <;> cases h
      | done cs =>
          obtain ⟨-, hc⟩ := isEol_headD ho htmp
          rintro c (_ | ⟨_, hmem⟩)
          · exact hc
          · exact ih hpre' hc c hmem

/-- Without calls that deliver nothing, what is stored is what is delivered. -/
lemma stored_eq_delivered (hpre : ∀ o ∈ pre, o.InLine) (hno : .done [] ∉ pre) :
    stored tmp pre = delivered pre := by
  induction pre generalizing tmp with
  | nil => rfl
  | cons o pre ih =>
      obtain ⟨ho, hpre'⟩ := List.forall_mem_cons.1 hpre
      rw [List.mem_cons, not_or] at hno
      rcases ho with rfl | rfl | ⟨c, rfl, -⟩
      · exact ih hpre' hno.2
      · exact absurd rfl hno.1
      · exact congrArg (c :: ·) (ih hpre' hno.2)

lemma length_delivered_le (hpre : ∀ o ∈ pre, o.InLine) (tmp : Char) :
    (delivered pre).length ≤ (stored tmp pre).length := by
  induction pre generalizing tmp with
  | nil => exact Nat.le_refl 0
  | cons o pre ih =>
      obtain ⟨ho, hpre'⟩ := List.forall_mem_cons.1 hpre
      rcases ho with rfl | rfl | ⟨c, rfl, -⟩
      · exact ih hpre' tmp
      · exact (ih hpre' tmp).trans (Nat.le_succ _)
      · exact Nat.succ_le_succ (ih hpre' c)

/-- Each call that delivers nothing makes what is stored longer. -/
lemma length_delivered_lt (hpre : ∀ o ∈ pre, o.InLine) (hzero : .done [] ∈ pre) (tmp : Char) :
    (delivered pre).length < (stored tmp pre).length := by
  induction pre generalizing tmp with
  | nil => cases hzero
  | cons o pre ih =>
      obtain ⟨ho, hpre'⟩ := List.forall_mem_cons.1 hpre
      rcases ho with rfl | rfl | ⟨c, rfl, -⟩
      · exact ih hpre' (by simpa using hzero) tmp
      · exact Nat.lt_succ_of_le (length_delivered_le hpre' tmp)
      · exact Nat.succ_lt_succ (ih hpre' (by simpa using hzero) c)

/-- The loop when `text` is stored. -/
def lineReader (buf text : List Char) (tmp : Char) (os : List (Transfer (List Char))) :
    LineReader :=
  ⟨os, write text buf, text.length, tmp⟩

lemma set_write (hlen : text.length < buf.length) (c : Char) :
    (write text buf).set text.length c = write (text ++ [c]) buf := by
  obtain ⟨d, ds, hd⟩ : ∃ d ds, buf.drop text.length = d :: ds := by
    refine List.exists_cons_of_ne_nil fun h => ?_
    rw [List.drop_eq_nil_iff] at h
    omega
  have hds : buf.drop (text.length + 1) = ds := by
    rw [← List.drop_drop, hd]
    rfl
  rw [write, write, List.set_append_right _ _ (Nat.le_refl _), Nat.sub_self, hd,
    List.length_append, List.length_singleton, hds, List.append_assoc]
  rfl

lemma termReadDev_tmp (hcs : cs.length ≤ 1) (tmp : Char) (os : List (Transfer (List Char))) :
    ∃ mem, termReadDev (.done cs :: os) [tmp] 0 = .ok (cs.length, mem, os) ∧
      mem.headD tmp = cs.headD tmp := by
  refine ⟨storeAt 0 cs [tmp], ?_, ?_⟩
  · have hin : 0 + cs.length ≤ [tmp].length := by simpa using hcs
    rw [termReadDev, retry]
    simp only [if_pos hin]
  · cases cs <;> rfl

/-- A round that stores a character. -/
lemma lineBody_done (max : ℕ) (tmp : Char) (os : List (Transfer (List Char)))
    (hlen : text.length < buf.length) (hcs : cs.length ≤ 1) :
    lineBody max (lineReader buf text tmp (.done cs :: os)) =
      if isEol (cs.headD tmp) then .ok (.inr (0, write (text ++ [cs.headD tmp]) buf))
      else if text.length + 1 = max then .ok (.inr (0, write (text ++ [cs.headD tmp]) buf))
      else .ok (.inl (lineReader buf (text ++ [cs.headD tmp]) (cs.headD tmp) os)) := by
  obtain ⟨mem, hdev, hmem⟩ := termReadDev_tmp hcs tmp os
  have hneg : ¬ (cs.length : ℤ) < 0 := by omega
  have hin : text.length < (write text buf).length := by rwa [length_write hlen.le]
  have hmax : ((text.length + 1 : ℕ) : ℤ) = max ↔ text.length + 1 = max := by
    omega
  have hnext : (⟨os, write (text ++ [cs.headD tmp]) buf, text.length + 1, cs.headD tmp⟩ :
      LineReader) = lineReader buf (text ++ [cs.headD tmp]) (cs.headD tmp) os := by
    rw [lineReader, List.length_append, List.length_singleton]
  rw [lineReader, lineBody]
  simp only [hdev, if_neg hneg, if_pos hin, hmem, set_write hlen, hmax, hnext]

/-- The loop, when `text` is stored, up to the end of the line or of the array. -/
lemma lineReader_ends (post : List (Transfer (List Char))) (text : List Char)
    (hbuf : max ≤ buf.length) {eol : Char} (heol : isEol eol = true) (hpre : ∀ o ∈ pre, o.InLine)
    (htmp : isEol tmp = false) (htext : text.length < max) :
    (Comp.loop (fun w => Comp.ofExcept (lineBody max w))
      (lineReader buf text tmp (pre ++ .done [eol] :: post))).Ends
        (.ok (0, write ((text ++ stored tmp pre ++ [eol]).take max) buf)) := by
  have hlen : text.length < buf.length := by omega
  induction pre generalizing text tmp with
  | nil =>
      have hbody := lineBody_done max tmp post hlen (show [eol].length ≤ 1 from Nat.le_refl 1)
      have heol' : isEol ([eol].headD tmp) = true := heol
      rw [if_pos heol'] at hbody
      have htake : (text ++ stored tmp [] ++ [eol]).take max = text ++ [eol] := by
        rw [stored, List.append_nil, List.take_of_length_le]
        rw [List.length_append, List.length_singleton]
        omega
      rw [htake]
      exact Comp.Ends.loop_inr (Comp.ends_ofExcept.2 hbody.symm)
  | cons o pre ih =>
      obtain ⟨ho, hpre'⟩ := List.forall_mem_cons.1 hpre
      cases o with
      | eintr =>
          -- the round is the one without the interrupted call
          have hbody : lineBody max (lineReader buf text tmp
              (.eintr :: (pre ++ .done [eol] :: post))) =
                lineBody max (lineReader buf text tmp (pre ++ .done [eol] :: post)) := rfl
          exact (Comp.loop_ends_congr (congrArg Comp.ofExcept hbody)).2 (ih text hpre' htmp htext
            hlen)
      | failed => rcases ho with h | h | ⟨c, h, -⟩ <;> cases h
      | done cs =>
          obtain ⟨hcs, hc⟩ := isEol_headD ho htmp
          have hbody := lineBody_done max tmp (pre ++ .done [eol] :: post) hlen hcs
          rw [stored]
          generalize cs.headD tmp = c at hbody hc ⊢
          rw [if_neg (by simp [hc])] at hbody
          have hlen' : (text ++ [c]).length = text.length + 1 := by
            rw [List.length_append, List.length_singleton]
          rw [List.append_cons text c]
          by_cases hfull : text.length + 1 = max
          · have htake : (text ++ [c] ++ stored c pre ++ [eol]).take max = text ++ [c] := by
              rw [List.append_assoc, List.take_left' (hlen'.trans hfull)]
            rw [if_pos hfull] at hbody
            rw [htake]
            exact Comp.Ends.loop_inr (Comp.ends_ofExcept.2 hbody.symm)
          · rw [if_neg hfull] at hbody
            exact Comp.Ends.loop_inl (Comp.ends_ofExcept.2 hbody.symm)
              (ih _ hpre' hc (by omega) (by omega))

/-- Where the line ends, something in front of its end is stored. -/
lemma write_stored_ne (l : Line) (hline : l.chars.length ≤ max) (hzero : .done [] ∈ l.pre) :
    write ((stored nul l.pre ++ [l.eol]).take max) buf ≠ write l.chars buf := by
  intro heq
  have hstored := length_delivered_lt l.inLine hzero nul
  have hlen : (delivered l.pre).length < max := by
    rw [Line.chars, List.length_append, List.length_singleton] at hline
    omega
  have htake : (delivered l.pre).length <
      ((stored nul l.pre ++ [l.eol]).take max).length := by
    rw [List.length_take, List.length_append, List.length_singleton]
    omega
  have hleft : (write ((stored nul l.pre ++ [l.eol]).take max) buf)[(delivered l.pre).length]? =
      some (stored nul l.pre)[(delivered l.pre).length] := by
    rw [write, List.getElem?_append_left htake, List.getElem?_take_of_lt hlen,
      List.getElem?_append_left hstored, List.getElem?_eq_getElem hstored]
  have hright : (write l.chars buf)[(delivered l.pre).length]? = some l.eol := by
    simp [write, Line.chars]
  have hget : (stored nul l.pre)[(delivered l.pre).length] = l.eol :=
    Option.some.inj (hleft.symm.trans ((congrArg (·[_]?) heq).trans hright))
  have hno := isEol_of_mem_stored l.inLine (by decide) _ (List.getElem_mem hstored)
  rw [hget, l.isEol_eol] at hno
  cases hno

/-- A line that fits is read as it was delivered just when no call in front of its end delivers
nothing. -/
theorem readsLine_iff (l : Line) (hline : l.chars.length ≤ max) (hbuf : max ≤ buf.length) :
    ReadsLine l buf max ↔ .done [] ∉ l.pre := by
  have hpos : ([] : List Char).length < max := by
    have hchars : 0 < l.chars.length := by simp [Line.chars]
    exact hchars.trans_le hline
  have hstart : lineReader buf [] nul l.reads = ⟨l.reads, buf, 0, nul⟩ := by
    simp [lineReader, write]
  have hreads : l.pre ++ .done [l.eol] :: l.post = l.reads := rfl
  have hnul : isEol nul = false := by decide
  have hends := lineReader_ends l.post [] hbuf l.isEol_eol l.inLine hnul hpos
  rw [hreads, hstart, List.nil_append] at hends
  constructor
  · intro h hzero
    exact write_stored_ne l hline hzero
      (congrArg Prod.snd (Except.ok.inj (hends.unique h)))
  · intro hno
    have heq : (stored nul l.pre ++ [l.eol]).take max = l.chars := by
      rw [stored_eq_delivered l.inLine hno]
      exact List.take_of_length_le hline
    rw [ReadsLine, termReadLine, ← heq]
    exact hends

/-- The line `a`, with an interrupted call. -/
def lineA : Line where
  pre := [.eintr, .done ['a']]
  eol := '\n'
  post := []
  inLine := by
    intro o ho
    rcases List.mem_cons.1 ho with rfl | ho
    · exact Or.inl rfl
    · exact Or.inr (Or.inr ⟨'a', by simpa using ho, rfl⟩)
  isEol_eol := rfl

theorem readsLine_iff_lineA : ReadsLine lineA ['x', 'y', 'z'] 3 ↔ .done [] ∉ lineA.pre :=
  readsLine_iff lineA (by decide) (by decide)

/-- An empty line, after a call that timed out. -/
def lineLate : Line where
  pre := [.done []]
  eol := '\n'
  post := []
  inLine := by
    intro o ho
    exact Or.inr (Or.inl (by simpa using ho))
  isEol_eol := rfl

/-- It is stored behind a NUL. -/
theorem not_readsLine_lineLate :
    (termReadLine lineLate.reads ['x', 'y'] (2 : ℕ)).Ends (.ok (0, [nul, '\n'])) ∧
      ¬ ReadsLine lineLate ['x', 'y'] 2 := by
  have hends : (termReadLine lineLate.reads ['x', 'y'] (2 : ℕ)).Ends (.ok (0, [nul, '\n'])) :=
    ⟨2, rfl⟩
  refine ⟨hends, fun h => ?_⟩
  have heq := congrArg Prod.snd (Except.ok.inj (hends.unique h))
  exact absurd heq (by decide)

end Term

end DemoClass
