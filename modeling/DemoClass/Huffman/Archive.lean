import DemoClass.Huffman.Build
import DemoClass.Lib.Bits

/-!
# Compressing and decompressing a file (`huff_compress`, `huff_decompress`)

An archive is the memory image of a `struct huff_head` and of the first `root + 1`
table entries, followed by the bits of the code words.  A `struct huff_node` takes 40
bytes: the two pointers of `list`, the three links, two bytes of padding, `weight`,
`code`, `code_len` and five bytes of padding.  The pointers and the padding are
whatever the memory holds (`mem i j` is the byte `j` of the entry `i`), and so are the
bytes of the header that a short read leaves alone (`junk`).

The functions take the bytes of the file that they read and return, with their return
value, the bytes that they write; all input and output succeeds.
-/

namespace DemoClass

namespace Huffman

/-- `sizeof(struct huff_head)` -/
def headSize : ℕ := 16

/-- `sizeof(struct huff_node)` -/
def nodeSize : ℕ := 40

/-- `HUFF_MAGIC` -/
def huffMagic : ℕ := 0x88888888

/-- The memory image of a `struct huff_node`. -/
def nodeBytes (mem : ℕ → UInt8) (n : HuffNode) : List UInt8 :=
  (List.range 16).map mem ++ leBytes 2 n.tree.parent ++ leBytes 2 n.tree.lchild ++
    leBytes 2 n.tree.rchild ++ (List.range 2).map (fun j => mem (22 + j)) ++
    leBytes 8 n.weight ++ leBytes 2 n.code ++ leBytes 1 n.codeLen ++
    (List.range 5).map fun j => mem (35 + j)

/-- The memory image of a `struct huff_head` without its table. -/
def headBytes (root fileSize : ℕ) : List UInt8 :=
  leBytes 4 huffMagic ++ leBytes 2 0x33 ++ leBytes 2 root ++ leBytes 8 fileSize

/-- `hf_make_huff_head`, on the length of the source file. -/
def hfMakeHuffHead (mem : ℕ → ℕ → UInt8) (info : HuffInfo) (fileSize : ℕ) :
    Comp Fault (List UInt8) := do
  let nodes ← (List.range (info.root + 1)).mapM fun i => do
    return nodeBytes (mem i) (← info.entry i)
  return headBytes info.root fileSize ++ nodes.flatten

/-! ### The payload -/

/-- The variables of the second pass of `huff_compress`, and what it has written. -/
structure Writer where
  wbuf : ℕ
  count : ℕ
  dst : List UInt8

/-- The body of the inner loop after the bit is known. -/
def Writer.put (s : Writer) (bit : ℕ) : Writer :=
  let wbuf := s.wbuf * 2 % charMod ||| bit
  let count := s.count + 1
  if count = 8 then ⟨0, 0, s.dst ++ [UInt8.ofNat wbuf]⟩ else ⟨wbuf, count, s.dst⟩

/-- Write the unfinished `wbuf`. -/
def Writer.flush (s : Writer) : List UInt8 :=
  if s.count ≠ 0 then s.dst ++ [UInt8.ofNat (s.wbuf * 2 ^ (8 - s.count))] else s.dst

/-- The inner loop of `huff_compress`: `CODE(rbuf)` is an `int` when it is shifted. -/
def putCode (node : HuffNode) (s : Writer) : Comp Fault Writer :=
  (List.range node.codeLen).foldlM (fun s i =>
    if 32 ≤ i then Comp.fault (.shift i) else pure (s.put ((node.code >>> i) &&& 1))) s

/-- The second pass of `huff_compress`. -/
def putFile (info : HuffInfo) (file : List UInt8) : Comp Fault Writer :=
  file.foldlM (fun s rbuf => do putCode (← info.entry rbuf.toNat) s) ⟨0, 0, []⟩

/-- `huff_compress` -/
def huffCompress (mem : ℕ → ℕ → UInt8) (info : HuffInfo) (file : List UInt8) :
    Comp Fault (ℤ × List UInt8) := do
  let info ← huffPrepare info file
  let head ← hfMakeHuffHead mem info file.length
  let s ← putFile info file
  return (0, head ++ s.flush)

/-! ### Decompression -/

/-- The number in the bytes `off`, …, `off + len - 1` of `raw`. -/
def field (raw : List UInt8) (off len : ℕ) : ℕ := leValue ((raw.drop off).take len)

/-- Memory with the contents `old`, after `bs` was read over it. -/
def readOver (bs old : List UInt8) : List UInt8 := bs ++ old.drop bs.length

/-- The entry whose memory image is `raw`. -/
def nodeOf (raw : List UInt8) : HuffNode where
  tree := ⟨field raw 16 2, field raw 18 2, field raw 20 2⟩
  weight := field raw 24 8
  code := field raw 32 2
  codeLen := field raw 34 1

/-- The table after `data` was read over it. -/
def readTable (mem : ℕ → ℕ → UInt8) (table : ℕ → HuffNode) (data : List UInt8) (i : ℕ) :
    HuffNode :=
  let bs := (data.drop (nodeSize * i)).take nodeSize
  if bs = [] then table i else nodeOf (readOver bs (nodeBytes (mem i) (table i)))

/-- `hf_unpack_huff_head`: its return value, the tables and what is left of the file.  A
wrong magic number is reported after `root` and `file_size` were stored.  The links of
`list` that the file holds are not followed by anyone. -/
def hfUnpackHuffHead (mem : ℕ → ℕ → UInt8) (junk : List UInt8) (info : HuffInfo)
    (src : List UInt8) : Comp Fault (ℤ × HuffInfo × List UInt8) :=
  let head := readOver (src.take headSize) junk
  let info := { info with root := field head 6 2, fileSize := field head 8 8 }
  let src := src.drop headSize
  if field head 0 4 ≠ huffMagic then
    pure (-1, info, src)
  else
    let size := nodeSize * (info.root + 1)
    let data := src.take size
    if nodeSize * allNum < data.length then
      Comp.fault (.tableIndex allNum)
    else
      pure (0, { info with table := readTable mem info.table data }, src.drop size)

/-- The variables of the loop of `huff_decompress`, and what it has written. -/
structure Reader where
  cur : ℕ
  fileSize : ℕ
  dst : List UInt8

/-- The body of the inner loop of `huff_decompress`; `inr` leaves both loops. -/
def getBit (info : HuffInfo) (s : Reader) (bit : Bool) : Comp Fault (Reader ⊕ Reader) := do
  let cur := (← info.entry s.cur).child bit
  if cur < leafNum then
    let s := ⟨info.root, (s.fileSize + 1) % sizeMod, s.dst ++ [UInt8.ofNat cur]⟩
    if s.fileSize = info.fileSize then return .inr s else return .inl s
  else
    return .inl { s with cur := cur }

/-- The inner loop of `huff_decompress`. -/
def getBits (info : HuffInfo) : List Bool → Reader → Comp Fault (Reader ⊕ Reader)
  | [], s => pure (.inl s)
  | bit :: bits, s => do
    match ← getBit info s bit with
    | .inl s => getBits info bits s
    | .inr s => pure (.inr s)

/-- The outer loop of `huff_decompress`. -/
def getFile (info : HuffInfo) : List UInt8 → Reader → Comp Fault Reader
  | [], s => pure s
  | rbuf :: src, s => do
    match ← getBits info (byteBits rbuf) s with
    | .inl s => getFile info src s
    | .inr s => pure s

/-- `huff_decompress` -/
def huffDecompress (mem : ℕ → ℕ → UInt8) (junk : List UInt8) (info : HuffInfo)
    (src : List UInt8) : Comp Fault (ℤ × List UInt8) := do
  let (ret, info, src) ← hfUnpackHuffHead mem junk info src
  if ret < 0 then
    return (-1, [])
  let s ← getFile info src ⟨info.root, 0, []⟩
  return (0, s.dst)

end Huffman

end DemoClass
