import DemoClass.Huffman.Archive
import Mathlib.Logic.Relation

/-!
# When `huff_decompress` stays in the table

Nothing checks the numbers that an archive brings along: `root` decides how many
entries are read into the table, and the links of these entries are followed.  The
walk through the table that the payload steers is `walk`.  Whatever the payload is, it
stands on an entry that the links lead to, and every such entry is reached by some payload.
So `huffDecompress_ends_iff` says for which headers and tables every index stays below 511:
those whose links do not lead out of the table.
-/

namespace DemoClass

namespace Huffman

variable {info : HuffInfo}

/-- One bit of the walk: the entry on which it stands, and how many leaves it has
reached. -/
def walkStep (info : HuffInfo) (p : ℕ × ℕ) (bit : Bool) : ℕ × ℕ :=
  let cur := (info.table p.1).child bit
  if cur < leafNum then (info.root, p.2 + 1) else (cur, p.2)

/-- The walk through the table from the root along `bits`. -/
def walk (info : HuffInfo) (bits : List Bool) : ℕ × ℕ := bits.foldl (walkStep info) (info.root, 0)

/-- After how many bytes the decoder stops: a counter of `size_t` meets zero only when
it wraps around. -/
def limit (info : HuffInfo) : ℕ := if info.fileSize = 0 then sizeMod else info.fileSize

/-- Whenever one more bit is read, the walk stands on an entry of the table. -/
def StaysInTable (info : HuffInfo) (bits : List Bool) : Prop :=
  ∀ bs b, bs ++ [b] <+: bits → (walk info bs).2 < limit info → (walk info bs).1 < allNum

/-- The header of an archive, read over `junk`. -/
def headOf (junk src : List UInt8) : List UInt8 := readOver (src.take headSize) junk

/-- The bytes of the table in an archive. -/
def tableOf (junk src : List UInt8) : List UInt8 :=
  (src.drop headSize).take (nodeSize * (field (headOf junk src) 6 2 + 1))

/-- The bytes behind the table. -/
def payloadOf (junk src : List UInt8) : List UInt8 :=
  (src.drop headSize).drop (nodeSize * (field (headOf junk src) 6 2 + 1))

/-- The tables after an archive was unpacked. -/
def unpacked (mem : ℕ → ℕ → UInt8) (junk : List UInt8) (info : HuffInfo) (src : List UInt8) :
    HuffInfo where
  table := readTable mem info.table (tableOf junk src)
  list := info.list
  root := field (headOf junk src) 6 2
  fileSize := field (headOf junk src) 8 8

/-- An entry has a link to an inner node. -/
def LinksTo (info : HuffInfo) (i j : ℕ) : Prop := leafNum ≤ j ∧ ∃ b, (info.table i).child b = j

/-- The entries that the links lead to from the root. -/
def Linked (info : HuffInfo) : ℕ → Prop := Relation.ReflTransGen (LinksTo info) info.root

/-- The table of the archive fits into `info->table`, and if there is a payload, the links do
not lead out of it. -/
structure SafeArchive (mem : ℕ → ℕ → UInt8) (junk : List UInt8) (info : HuffInfo)
    (src : List UInt8) : Prop where
  fits : (tableOf junk src).length ≤ nodeSize * allNum
  links : payloadOf junk src ≠ [] → ∀ i, Linked (unpacked mem junk info src) i → i < allNum

/-- Archives with the same header and the same table, both with a payload or both without
one. -/
structure SameFront (junk src src' : List UInt8) : Prop where
  head : headOf junk src' = headOf junk src
  table : tableOf junk src' = tableOf junk src
  payload : payloadOf junk src' = [] ↔ payloadOf junk src = []

/-! ### The loops over bytes and over bits -/

lemma getBits_append (bits bits' : List Bool) (s : Reader) :
    getBits info (bits ++ bits') s = getBits info bits s >>= fun r =>
      match r with
      | .inl s => getBits info bits' s
      | .inr s => pure (.inr s) := by
  induction bits generalizing s with
  | nil => simp [getBits]
  | cons bit bits ih =>
      simp only [List.cons_append, getBits, bind_assoc]
      refine bind_congr fun r => ?_
      cases r with
      | inl s => exact ih s
      | inr s => simp

/-- What the loop has done when it is left in one way or the other. -/
def result : Reader ⊕ Reader → Reader
  | .inl s => s
  | .inr s => s

lemma getFile_eq (src : List UInt8) (s : Reader) :
    getFile info src s = getBits info (src.flatMap byteBits) s >>= fun r => pure (result r) := by
  induction src generalizing s with
  | nil => simp [getFile, getBits, result]
  | cons rbuf src ih =>
      simp only [getFile, List.flatMap_cons, getBits_append, bind_assoc]
      refine bind_congr fun r => ?_
      cases r with
      | inl s => exact ih s
      | inr s => simp [result]

/-! ### The walk -/

lemma walk_concat (info : HuffInfo) (bs : List Bool) (b : Bool) :
    walk info (bs ++ [b]) = walkStep info (walk info bs) b := by
  simp [walk]

lemma walkStep_snd_le (info : HuffInfo) (p : ℕ × ℕ) (b : Bool) :
    p.2 ≤ (walkStep info p b).2 := by
  rw [walkStep]
  split
  · exact Nat.le_succ _
  · exact le_rfl

lemma walk_snd_le (info : HuffInfo) (bs cs : List Bool) :
    (walk info bs).2 ≤ (walk info (bs ++ cs)).2 := by
  induction cs using List.reverseRecOn with
  | nil => simp
  | append_singleton cs c ih =>
      rw [← List.append_assoc, walk_concat]
      exact ih.trans (walkStep_snd_le info _ c)

lemma limit_le (h : info.fileSize < sizeMod) : limit info ≤ sizeMod := by
  rw [limit]
  split
  · exact le_rfl
  · exact h.le

/-- The counter meets `file_size` exactly at the limit. -/
lemma count_eq_iff (h : info.fileSize < sizeMod) {c : ℕ} (hc : c < limit info) :
    (c + 1) % sizeMod = info.fileSize ↔ c + 1 = limit info := by
  by_cases hzero : info.fileSize = 0
  · have hlimit : limit info = sizeMod := if_pos hzero
    rw [hlimit] at hc ⊢
    rw [hzero]
    rcases Nat.lt_or_ge (c + 1) sizeMod with hlt | hge
    · rw [Nat.mod_eq_of_lt hlt]
      omega
    · have heq : c + 1 = sizeMod := by omega
      rw [heq, Nat.mod_self]
      simp
  · have hlimit : limit info = info.fileSize := if_neg hzero
    rw [hlimit] at hc ⊢
    rw [Nat.mod_eq_of_lt (by omega)]

/-- One bit of the decoder is one step of the walk, if it stands on an entry of the
table. -/
lemma getBit_of_lt (h : info.fileSize < sizeMod) {p : ℕ × ℕ} (dst : List UInt8) (b : Bool)
    (hp : p.1 < allNum) (hc : p.2 < limit info) :
    (∃ dst', getBit info ⟨p.1, p.2, dst⟩ b =
        pure (.inl ⟨(walkStep info p b).1, (walkStep info p b).2, dst'⟩) ∧
      (walkStep info p b).2 < limit info) ∨
    (∃ s, getBit info ⟨p.1, p.2, dst⟩ b = pure (.inr s)) ∧
      limit info ≤ (walkStep info p b).2 := by
  by_cases hleaf : (info.table p.1).child b < leafNum
  · have hstep : walkStep info p b = (info.root, p.2 + 1) := by simp [walkStep, hleaf]
    by_cases hend : p.2 + 1 = limit info
    · have heq := (count_eq_iff h hc).2 hend
      refine Or.inr ⟨⟨⟨info.root, info.fileSize,
        dst ++ [UInt8.ofNat ((info.table p.1).child b)]⟩, ?_⟩, by rw [hstep]; exact hend.ge⟩
      simp [getBit, hp, hleaf, heq]
    · have hne : (p.2 + 1) % sizeMod ≠ info.fileSize := fun he => hend ((count_eq_iff h hc).1 he)
      have hlt : p.2 + 1 < limit info := by omega
      have hmod : (p.2 + 1) % sizeMod = p.2 + 1 := Nat.mod_eq_of_lt (hlt.trans_le (limit_le h))
      refine Or.inl ⟨dst ++ [UInt8.ofNat ((info.table p.1).child b)], ?_, by rw [hstep]; exact hlt⟩
      rw [hmod] at hne
      simp [getBit, hp, hleaf, hne, hmod, hstep]
  · have hstep : walkStep info p b = ((info.table p.1).child b, p.2) := by simp [walkStep, hleaf]
    refine Or.inl ⟨dst, ?_, by rw [hstep]; exact hc⟩
    simp [getBit, hp, hleaf, hstep]

lemma forall_prefix_cons {P : List Bool → Prop} {b₀ : Bool} {bits : List Bool} :
    (∀ cs b, cs ++ [b] <+: b₀ :: bits → P cs) ↔
      P [] ∧ ∀ cs b, cs ++ [b] <+: bits → P (b₀ :: cs) := by
  constructor
  · intro h
    refine ⟨h [] b₀ (by simp), fun cs b hp => h (b₀ :: cs) b ?_⟩
    rw [List.cons_append, List.cons_prefix_cons]
    exact ⟨rfl, hp⟩
  · rintro ⟨hnil, hcons⟩ cs b hp
    rcases cs with _ | ⟨c, cs⟩
    · exact hnil
    · rw [List.cons_append, List.cons_prefix_cons] at hp
      obtain ⟨rfl, hp⟩ := hp
      exact hcons cs b hp

/-- After the bits `bs` the decoder ends on the rest if and only if the walk stays in the
table. -/
lemma getBits_ends_iff (h : info.fileSize < sizeMod) (bits : List Bool) {bs : List Bool}
    (dst : List UInt8) (hc : (walk info bs).2 < limit info) :
    (∃ r, (getBits info bits ⟨(walk info bs).1, (walk info bs).2, dst⟩).Ends (.ok r)) ↔
      ∀ cs b, cs ++ [b] <+: bits → (walk info (bs ++ cs)).2 < limit info →
        (walk info (bs ++ cs)).1 < allNum := by
  induction bits generalizing bs dst with
  | nil => simp [getBits]
  | cons b₀ bits ih =>
      rw [forall_prefix_cons, List.append_nil]
      by_cases hp : (walk info bs).1 < allNum
      · rcases getBit_of_lt h dst b₀ hp hc with ⟨dst', hbit, hlt⟩ | ⟨⟨s, hbit⟩, hge⟩
        · rw [← walk_concat] at hlt
          have hih := ih dst' hlt
          rw [walk_concat] at hih
          rw [getBits, hbit, pure_bind, hih]
          simp [hp]
        · rw [getBits, hbit, pure_bind]
          refine iff_of_true ⟨.inr s, by simp⟩ ⟨fun _ => hp, fun cs b _ hlt => ?_⟩
          have hle := walk_snd_le info (bs ++ [b₀]) cs
          rw [walk_concat, List.append_assoc, List.singleton_append] at hle
          omega
      · have hbit : getBit info ⟨(walk info bs).1, (walk info bs).2, dst⟩ b₀ =
            Comp.fault (.tableIndex (walk info bs).1) := by
          rw [getBit, HuffInfo.entry_of_le (not_lt.1 hp)]
          rfl
        rw [getBits, hbit, Comp.fault_bind]
        refine iff_of_false ?_ fun hall => hp (hall.1 hc)
        simp

lemma limit_pos (info : HuffInfo) : 0 < limit info := by
  rw [limit]
  split
  · exact Nat.two_pow_pos 64
  · exact Nat.pos_of_ne_zero ‹_›

/-- The loops of the decoder end if and only if the walk stays in the table. -/
lemma getFile_ends_iff (h : info.fileSize < sizeMod) (src : List UInt8) :
    (∃ s, (getFile info src ⟨info.root, 0, []⟩).Ends (.ok s)) ↔
      StaysInTable info (src.flatMap byteBits) := by
  have hlimit : (walk info []).2 < limit info := limit_pos info
  have hbits := getBits_ends_iff h (src.flatMap byteBits) [] hlimit
  simp only [List.nil_append] at hbits
  rw [StaysInTable, ← hbits, getFile_eq]
  constructor
  · rintro ⟨s, hs⟩
    obtain ⟨r, hr, -⟩ := Comp.ends_bind_ok_iff.1 hs
    exact ⟨r, hr⟩
  · rintro ⟨r, hr⟩
    exact ⟨result r, hr.bind (by simp)⟩

/-! ### The header -/

lemma field_lt (raw : List UInt8) (off len : ℕ) : field raw off len < 256 ^ len := by
  refine (leValue_lt _).trans_le (Nat.pow_le_pow_right (by norm_num) ?_)
  simp

lemma hfUnpackHuffHead_of_ne (mem : ℕ → ℕ → UInt8) (info : HuffInfo) {junk src : List UInt8}
    (h : field (headOf junk src) 0 4 ≠ huffMagic) :
    ∃ info' src', hfUnpackHuffHead mem junk info src = pure (-1, info', src') := by
  rw [headOf] at h
  simp only [hfUnpackHuffHead, if_pos h]
  exact ⟨_, _, rfl⟩

lemma hfUnpackHuffHead_of_eq {mem : ℕ → ℕ → UInt8} {junk src : List UInt8}
    (h : field (headOf junk src) 0 4 = huffMagic) :
    hfUnpackHuffHead mem junk info src =
      if nodeSize * allNum < (tableOf junk src).length then Comp.fault (.tableIndex allNum)
      else pure (0, unpacked mem junk info src, payloadOf junk src) := by
  have h' : ¬ field (readOver (List.take headSize src) junk) 0 4 ≠ huffMagic := not_not.2 h
  simp only [hfUnpackHuffHead, if_neg h']
  rfl

/-- The decompressor ends on an archive if the magic number is wrong, or if the table fits and
the walk along the payload stays in it. -/
lemma huffDecompress_stays_iff (mem : ℕ → ℕ → UInt8) (junk : List UInt8) (info : HuffInfo)
    (src : List UInt8) :
    (∃ v, (huffDecompress mem junk info src).Ends (.ok v)) ↔
      (field (headOf junk src) 0 4 = huffMagic →
        (tableOf junk src).length ≤ nodeSize * allNum ∧
        StaysInTable (unpacked mem junk info src) ((payloadOf junk src).flatMap byteBits)) := by
  by_cases hmagic : field (headOf junk src) 0 4 = huffMagic
  · have hsize : (unpacked mem junk info src).fileSize < sizeMod := field_lt _ 8 8
    rw [huffDecompress, hfUnpackHuffHead_of_eq hmagic]
    by_cases hfit : nodeSize * allNum < (tableOf junk src).length
    · rw [if_pos hfit, Comp.fault_bind]
      refine iff_of_false (by simp) fun hsafe => ?_
      exact absurd (hsafe hmagic).1 (not_le.2 hfit)
    · rw [if_neg hfit, pure_bind]
      have hfile := getFile_ends_iff hsize (payloadOf junk src)
      constructor
      · rintro ⟨v, hv⟩ -
        obtain ⟨s, hs, -⟩ := Comp.ends_bind_ok_iff.1 hv
        exact ⟨not_lt.1 hfit, hfile.1 ⟨s, hs⟩⟩
      · intro hsafe
        obtain ⟨s, hs⟩ := hfile.2 (hsafe hmagic).2
        exact ⟨(0, s.dst), hs.bind (by simp)⟩
  · obtain ⟨info', src', hhead⟩ := hfUnpackHuffHead_of_ne mem info hmagic
    rw [huffDecompress, hhead, pure_bind]
    exact iff_of_true ⟨(-1, []), by simp⟩ fun h => absurd h hmagic

/-! ### Where the links lead -/

/-- The walk stands on entries that the links lead to. -/
lemma linked_walk (info : HuffInfo) (bs : List Bool) : Linked info (walk info bs).1 := by
  induction bs using List.reverseRecOn with
  | nil => exact Relation.ReflTransGen.refl
  | append_singleton bs b ih =>
      rw [walk_concat, walkStep]
      by_cases hleaf : (info.table (walk info bs).1).child b < leafNum
      · rw [if_pos hleaf]
        exact Relation.ReflTransGen.refl
      · rw [if_neg hleaf]
        exact Relation.ReflTransGen.tail ih ⟨not_lt.1 hleaf, b, rfl⟩

/-- Some bits lead to every such entry, before a leaf is reached. -/
lemma Linked.exists_walk {i : ℕ} (h : Linked info i) : ∃ bs, walk info bs = (i, 0) := by
  induction h with
  | refl => exact ⟨[], rfl⟩
  | @tail i j _ hlink ih =>
      obtain ⟨bs, hbs⟩ := ih
      obtain ⟨hj, b, rfl⟩ := hlink
      refine ⟨bs ++ [b], ?_⟩
      rw [walk_concat, hbs, walkStep, if_neg (not_lt.2 hj)]

/-- For every such entry there is a payload that uses it as an index. -/
lemma Linked.exists_payload {i : ℕ} (h : Linked info i) :
    ∃ payload : List UInt8, payload ≠ [] ∧
      (StaysInTable info (payload.flatMap byteBits) → i < allNum) := by
  obtain ⟨bs, hbs⟩ := h.exists_walk
  -- one bit more reads the links of the entry, the rest fills the last byte
  have hlen : (bs ++ [true] ++ List.replicate (7 * (bs.length + 1)) false).length =
      8 * (bs.length + 1) := by
    simp
    omega
  obtain ⟨payload, hpayload⟩ := exists_flatMap_byteBits hlen
  refine ⟨payload, ?_, fun hstays => ?_⟩
  · rintro rfl
    simp at hpayload
  · have hpre : bs ++ [true] <+: payload.flatMap byteBits := ⟨_, hpayload.symm⟩
    have hentry := hstays bs true hpre
    rw [hbs] at hentry
    exact hentry (limit_pos info)

/-! ### Archives with another payload -/

lemma SameFront.refl (junk src : List UInt8) : SameFront junk src src := ⟨rfl, rfl, Iff.rfl⟩

lemma SameFront.unpacked_eq {junk src src' : List UInt8} (h : SameFront junk src src')
    (mem : ℕ → ℕ → UInt8) : unpacked mem junk info src' = unpacked mem junk info src := by
  rw [unpacked, unpacked, h.head, h.table]

/-- Any other payload may stand behind the table. -/
lemma exists_sameFront {junk src payload : List UInt8} (h : payloadOf junk src ≠ [])
    (hne : payload ≠ []) : ∃ src', SameFront junk src src' ∧ payloadOf junk src' = payload := by
  obtain ⟨n, hn⟩ : ∃ n, headSize + nodeSize * (field (headOf junk src) 6 2 + 1) = n := ⟨_, rfl⟩
  have hlen : n < src.length := by
    have hpos := List.length_pos_of_ne_nil h
    rw [payloadOf, List.drop_drop, hn, List.length_drop] at hpos
    omega
  have htake : (src.take n).length = n := by
    rw [List.length_take]
    omega
  have hhead : headOf junk (src.take n ++ payload) = headOf junk src := by
    rw [headOf, headOf, List.take_append_of_le_length (by omega), List.take_take,
      min_eq_left (by omega)]
  have hpayload : payloadOf junk (src.take n ++ payload) = payload := by
    rw [payloadOf, hhead, List.drop_drop, hn]
    exact List.drop_left' htake
  refine ⟨src.take n ++ payload, ⟨hhead, ?_, ?_⟩, hpayload⟩
  · rw [tableOf, tableOf, hhead, List.drop_append_of_le_length (by omega),
      List.take_append_of_le_length (by rw [List.length_drop]; omega), List.drop_take,
      List.take_take, min_eq_left (by omega)]
  · rw [hpayload]
    exact iff_of_false hne h

/-- **The decompressor stays in the table exactly for the safe archives.**  For every header
and table, it ends on all archives that begin with them if the magic number is wrong, or if
the table fits and its links do not lead out of it; otherwise some payload leads it out. -/
theorem huffDecompress_ends_iff (mem : ℕ → ℕ → UInt8) (junk : List UInt8) (info : HuffInfo)
    (src : List UInt8) :
    (∀ src', SameFront junk src src' → ∃ v, (huffDecompress mem junk info src').Ends (.ok v)) ↔
      (field (headOf junk src) 0 4 = huffMagic → SafeArchive mem junk info src) := by
  constructor
  · intro hall hmagic
    have hends := (huffDecompress_stays_iff mem junk info src).1 (hall src (.refl junk src)) hmagic
    refine ⟨hends.1, fun hne i hi => ?_⟩
    obtain ⟨payload, hpayload, hstays⟩ := hi.exists_payload
    obtain ⟨src', hsame, hsrc'⟩ := exists_sameFront hne hpayload
    have hends' := (huffDecompress_stays_iff mem junk info src').1 (hall src' hsame)
      (by rw [hsame.head]; exact hmagic)
    rw [hsame.unpacked_eq, hsrc'] at hends'
    exact hstays hends'.2
  · intro hsafe src' hsame
    refine (huffDecompress_stays_iff mem junk info src').2 fun hmagic => ?_
    rw [hsame.head] at hmagic
    obtain ⟨hfits, hlinks⟩ := hsafe hmagic
    rw [hsame.table, hsame.unpacked_eq]
    refine ⟨hfits, fun bs b hpre _ => ?_⟩
    -- there is a bit to read, and so there is a payload
    have hne : payloadOf junk src' ≠ [] := by
      intro hnil
      rw [hnil] at hpre
      simp at hpre
    exact hlinks (fun hnil => hne (hsame.payload.2 hnil)) _ (linked_walk _ bs)

/-- An archive of 57 bytes whose only table entry links to 65535. -/
theorem huffDecompress_leaves_table :
    ¬ ∃ v, (huffDecompress (fun _ _ => 0) [] (huffInit ⟨fun _ => .fresh, ⟨id, id⟩, 0, 0⟩)
      (headBytes 0 1 ++ List.replicate 40 255 ++ [0])).Ends (.ok v) := by
  rintro ⟨v, hv⟩
  have hfault : (huffDecompress (fun _ _ => 0) [] (huffInit ⟨fun _ => .fresh, ⟨id, id⟩, 0, 0⟩)
      (headBytes 0 1 ++ List.replicate 40 255 ++ [0])).Ends (.error (.tableIndex 65535)) :=
    ⟨0, by decide +kernel⟩
  exact absurd (hv.unique hfault) (by simp)

end Huffman

end DemoClass
