import DemoClass.Huffman.Decode

/-!
# What a bad archive does to the target

`huff_decompress` opens its target with `"w"`, which empties it, before it has looked at
the archive; and it checks the magic number in a header that a short read has filled only
in part.  `badArchive_spares_target_iff` says when a file that is no archive is rejected and
leaves the target alone.
-/

namespace DemoClass

namespace Huffman

/-- The files by their names, with `none` for those that do not exist. -/
abbrev Files (P : Type) := P → Option (List UInt8)

variable {P : Type} [DecidableEq P]

/-- `fopen(path, "w")` -/
def fopenW (fs : Files P) (path : P) : Files P := Function.update fs path (some [])

/-- `huff_decompress`, between two named files: its return value and the files it leaves;
`none` stands for the `abort()` of `PERROR`.  The source is read after the target was
opened, and every write goes to the end of the target. -/
def huffDecompressFiles (mem : ℕ → ℕ → UInt8) (junk : List UInt8) (info : HuffInfo)
    (fs : Files P) (src dst : P) : Comp Fault (Option (ℤ × Files P)) :=
  if fs src = none then pure none
  else do
    let fs := fopenW fs dst
    let (ret, written) ← huffDecompress mem junk info ((fs src).getD [])
    return some (ret, Function.update fs dst ((fs dst).map (· ++ written)))

/-- The file begins with a whole `struct huff_head` that carries `HUFF_MAGIC`. -/
def BeginsWithHead (content : List UInt8) : Prop :=
  headSize ≤ content.length ∧ field content 0 4 = huffMagic

/-- What can still be read of the source once the target was opened. -/
def readable (content : List UInt8) (src dst : P) : List UInt8 :=
  if src = dst then [] else content

variable {mem : ℕ → ℕ → UInt8} {junk content : List UInt8} {info : HuffInfo} {fs : Files P}
variable {src dst : P}

omit [DecidableEq P] in
/-- The return value says whether the magic number was found. -/
lemma huffDecompress_of_ne (h : field (headOf junk content) 0 4 ≠ huffMagic) :
    huffDecompress mem junk info content = pure (-1, []) := by
  obtain ⟨info', src', hhead⟩ := hfUnpackHuffHead_of_ne mem info h
  rw [huffDecompress, hhead, pure_bind]
  rfl

omit [DecidableEq P] in
lemma huffDecompress_of_eq (h : field (headOf junk content) 0 4 = huffMagic)
    {v : ℤ × List UInt8} (hv : (huffDecompress mem junk info content).Ends (.ok v)) : v.1 = 0 := by
  rw [huffDecompress, hfUnpackHuffHead_of_eq h] at hv
  obtain ⟨r, hr, hv⟩ := Comp.ends_bind_ok_iff.1 hv
  split at hr
  · simp at hr
  · obtain rfl := Except.ok.inj (Comp.ends_pure.1 hr)
    obtain ⟨s, -, hv⟩ := Comp.ends_bind_ok_iff.1 hv
    rw [Except.ok.inj (Comp.ends_pure.1 hv)]

/-- A call that returns leaves in the target what it has written, and nothing else. -/
lemma huffDecompressFiles_ends_iff (hsrc : fs src = some content) {ret : ℤ} {fs' : Files P} :
    (huffDecompressFiles mem junk info fs src dst).Ends (.ok (some (ret, fs'))) ↔
      ∃ written, (huffDecompress mem junk info (readable content src dst)).Ends
          (.ok (ret, written)) ∧ fs' = Function.update fs dst (some written) := by
  have hread : ((fopenW fs dst) src).getD [] = readable content src dst := by
    rw [fopenW, readable, Function.update_apply]
    split
    · rfl
    · rw [hsrc, Option.getD_some]
  rw [huffDecompressFiles, if_neg (by simp [hsrc])]
  dsimp only
  rw [hread, Comp.ends_bind_ok_iff]
  simp [fopenW]

variable (mem junk info) (fs : Files P) (src dst : P)

lemma rejected_and_spared_iff (hsrc : fs src = some content) :
    (∃ fs', (huffDecompressFiles mem junk info fs src dst).Ends (.ok (some (-1, fs'))) ∧
        fs' dst = fs dst) ↔
      fs dst = some [] ∧ field (headOf junk (readable content src dst)) 0 4 ≠ huffMagic := by
  simp only [huffDecompressFiles_ends_iff hsrc]
  constructor
  · rintro ⟨fs', ⟨written, hends, rfl⟩, hsame⟩
    have hmagic : field (headOf junk (readable content src dst)) 0 4 ≠ huffMagic := fun he =>
      absurd (huffDecompress_of_eq he hends) (by simp)
    rw [huffDecompress_of_ne hmagic, Comp.ends_pure] at hends
    obtain rfl : written = [] := by simpa using hends
    exact ⟨by simpa using hsame.symm, hmagic⟩
  · rintro ⟨hempty, hmagic⟩
    refine ⟨_, ⟨[], ?_, rfl⟩, ?_⟩
    · rw [huffDecompress_of_ne hmagic, Comp.ends_pure]
    · rw [Function.update_self, hempty]

/-- **What a bad archive does to the target.**  A file that does not begin with a whole header
carrying `HUFF_MAGIC` should be rejected with -1, and the target be as it was.  This is so
exactly when the target existed and was empty, and the header buffer does not hold
`HUFF_MAGIC` after the read: a file that is too short leaves in it what the memory happened
to hold. -/
theorem badArchive_spares_target_iff (hsrc : fs src = some content) :
    (¬ BeginsWithHead content →
      ∃ fs', (huffDecompressFiles mem junk info fs src dst).Ends (.ok (some (-1, fs'))) ∧
        fs' dst = fs dst) ↔
      BeginsWithHead content ∨
        fs dst = some [] ∧ field (headOf junk (readable content src dst)) 0 4 ≠ huffMagic := by
  rw [rejected_and_spared_iff mem junk info fs src dst hsrc, ← or_iff_not_imp_left]

/-- A source of twenty bytes, and an empty target. -/
theorem badArchive_spares_empty_target : ∃ fs' : Files ℕ,
    (huffDecompressFiles (fun _ _ => 0) (List.replicate 16 0) ⟨fun _ => .fresh, ⟨id, id⟩, 0, 0⟩
      (fun p => some (if p = 0 then List.replicate 20 97 else [])) 0 1).Ends
        (.ok (some (-1, fs'))) ∧ fs' 1 = some [] :=
  (badArchive_spares_target_iff (fun _ _ => 0) (List.replicate 16 0)
    ⟨fun _ => .fresh, ⟨id, id⟩, 0, 0⟩ (fun p => some (if p = 0 then List.replicate 20 97 else []))
    0 1 rfl).2 (Or.inr ⟨rfl, by decide⟩) fun h => absurd h.2 (by decide)

/-- A source of sixteen zeros, and a target of one byte. -/
theorem badArchive_empties_target : ¬ BeginsWithHead (List.replicate 16 0) ∧
    ¬ ∃ fs' : Files ℕ, (huffDecompressFiles (fun _ _ => 0) (List.replicate 16 0)
      ⟨fun _ => .fresh, ⟨id, id⟩, 0, 0⟩
      (fun p => some (if p = 0 then List.replicate 16 0 else [97])) 0 1).Ends
        (.ok (some (-1, fs'))) ∧ fs' 1 = some [97] := by
  refine ⟨fun h => absurd h.2 (by decide), fun h => ?_⟩
  have hspared := (rejected_and_spared_iff _ _ _
    (fun p : ℕ => some (if p = 0 then List.replicate 16 0 else [97])) 0 1 rfl).1 h
  exact absurd hspared.1 (by simp)

end Huffman

end DemoClass
