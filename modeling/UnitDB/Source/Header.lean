import Mathlib.Data.List.OfFn
import UnitDB.Source.LinearHash

/-!
# The index file's header

`header.MarshalBinary` and `header.UnmarshalBinary` (the `tracedb` header code, which `src/`
keeps at the end of `message/trie.go`) and the second `DB`'s `writeHeader` and `readHeader`
(db.go:1019-1050). `MarshalBinary` writes the signature, the version and `dbInfo` into a
zeroed buffer of `headerSize` octets; `UnmarshalBinary` reads them back from the octets
`readHeader` reads at offset 0 of the index file.

Modelling choices:

* `headerSize` is `align512(uint32(binary.Size(header{})))`. `binary.Size` counts the 292
  octets of `header` (7 + 4 + 25 for `dbInfo` + 256 of padding); `align512` is not in `src/`,
  it rounds up to a multiple of 512;
* `int64` is `Int64`, an integer in the 64-bit two's-complement range; `uint64(x)` is
  `x mod 2^64` and `int64(u)` takes `2^64` off a word of `2^63` or more;
* `copy(buf[lo:hi], src)`, `PutUint32(buf[lo:lo+4], v)`, `PutUint64` and `buf[lo] = v` on a
  span inside the buffer overwrite it (`overwrite`); the marshalled spans all lie inside the
  `headerSize` octets. A slice of `data` that is out of range panics (`none`);
* the freelist (`fl.defrag`, `fl.write`, `fl.read`) and the index file's
  `writeMarshalableAt` and `readUnmarshalableAt` are not in `src/`: `fl.write` is an outcome
  given to `writeHeader` (its error, or the offset it wrote the freelist at), `fl.read` an
  outcome given to `readHeader`, and the index file is the list of its octets, written over
  from offset 0 and read by a slice.
-/

namespace UnitDB.Source.IndexHeader
open UnitDB.Source

/-! ## 64-bit words -/

/-- `int64`. -/
structure Int64 where
  val : Int
  range : -2 ^ 63 ≤ val ∧ val < 2 ^ 63
  deriving DecidableEq, Repr

/-- `uint64(x)`: the word whose two's-complement reading is `x`. -/
def Int64.toUInt64 (x : Int64) : Nat := (x.val % 2 ^ 64).toNat

/-- `int64(u)` for a 64-bit word `u`. -/
def Int64.ofUInt64 (u : Nat) : Int64 :=
  if h : u % 2 ^ 64 < 2 ^ 63 then ⟨u % 2 ^ 64, by omega⟩ else ⟨(u % 2 ^ 64 : Nat) - 2 ^ 64, by omega⟩

/-- `int64(uint64(x)) = x`: the conversion through the unsigned word loses nothing, for
negative `x` too. -/
@[simp] theorem Int64.ofUInt64_toUInt64 (x : Int64) : Int64.ofUInt64 x.toUInt64 = x := by
  obtain ⟨v, lo, hi⟩ := x
  have word : ((v % 2 ^ 64).toNat : Int) = v % 2 ^ 64 := Int.toNat_of_nonneg (Int.emod_nonneg _ (by decide))
  unfold Int64.ofUInt64 Int64.toUInt64
  generalize (v % 2 ^ 64).toNat = w at word ⊢
  split <;> simp only [Int64.mk.injEq] <;> omega

/-! ## The codec -/

/-- `dbInfo` of the second `DB` (db.go:826-833). -/
structure DbInfo where
  level : UInt8
  count : UInt32
  nBlocks : UInt32
  splitBlockIdx : UInt32
  freelistOff : Int64
  hashSeed : UInt32
  deriving DecidableEq, Repr

/-- `header`: the signature (`[7]byte`), the version and `dbInfo`. The blank `[256]byte` field
is padding that neither method reads or writes. -/
structure Header where
  signature : Fin 7 → UInt8
  version : UInt32
  info : DbInfo

/-- `signature = [7]byte{'t', 'r', 'a', 'c', 'e', 'd', 'b'}`. -/
def signature : Fin 7 → UInt8 := fun i => [116, 114, 97, 99, 101, 100, 98].getD i 0

/-- `version = 1`. -/
def version : UInt32 := 1

/-- Not in `src/`: rounds up to a multiple of 512. -/
def align512 (n : Nat) : Nat := (n + 511) / 512 * 512

/-- `headerSize = align512(uint32(binary.Size(header{})))`. -/
def headerSize : Nat := align512 (7 + 4 + (1 + 4 + 4 + 4 + 8 + 4) + 256)

/-- A write into the span of `buf` from `lo` on. -/
def overwrite (buf : Bytes) (lo : Nat) (src : Bytes) : Bytes :=
  buf.take lo ++ src ++ buf.drop (lo + src.length)

/-- `MarshalBinary` (message/trie.go:243-254). `copy(buf[:8], h.signature[:])` copies the 7
octets of the signature. The returned error is always `nil`. -/
def Header.marshalBinary (h : Header) : Bytes :=
  let buf := List.replicate headerSize 0
  let buf := overwrite buf 0 (List.ofFn h.signature)
  let buf := overwrite buf 8 (putUint32 h.version.toNat)
  let buf := overwrite buf 12 [h.info.level]
  let buf := overwrite buf 13 (putUint32 h.info.count.toNat)
  let buf := overwrite buf 17 (putUint32 h.info.nBlocks.toNat)
  let buf := overwrite buf 21 (putUint32 h.info.splitBlockIdx.toNat)
  let buf := overwrite buf 25 (putUint64 h.info.freelistOff.toUInt64)
  overwrite buf 33 (putUint32 h.info.hashSeed.toNat)

/-- `UnmarshalBinary` (message/trie.go:256-266) into a fresh `header{}`:
`copy(h.signature[:], data[:8])` copies 7 octets. The returned error is always `nil`; `none` is
a panic on a slice of `data` out of range. -/
def unmarshalBinary (data : Bytes) : Option Header := do
  let sig ← slice data 0 8
  let version ← slice data 8 12
  let level ← data[12]?
  let count ← slice data 13 17
  let nBlocks ← slice data 17 21
  let splitBlockIdx ← slice data 21 25
  let freelistOff ← slice data 25 33
  let hashSeed ← slice data 33 37
  pure ⟨fun i => sig.getD i 0, UInt32.ofNat (readUint32 version),
    ⟨level, UInt32.ofNat (readUint32 count), UInt32.ofNat (readUint32 nBlocks),
      UInt32.ofNat (readUint32 splitBlockIdx), Int64.ofUInt64 (readUint64 freelistOff),
      UInt32.ofNat (readUint32 hashSeed)⟩⟩

/-- The spec's header layout (§6), written out: the signature and one zero in `[0, 8)`, the
version in `[8, 12)`, the level at 12, `count`, `nBlocks` and `splitBlockIdx` in `[13, 25)`,
`freelistOff` in `[25, 33)`, `hashSeed` in `[33, 37)`, zeros to `headerSize`. -/
def Header.layout (h : Header) : Bytes :=
  List.ofFn h.signature ++ [0] ++ putUint32 h.version.toNat ++ [h.info.level] ++
    putUint32 h.info.count.toNat ++ putUint32 h.info.nBlocks.toNat ++
    putUint32 h.info.splitBlockIdx.toNat ++ putUint64 h.info.freelistOff.toUInt64 ++
    putUint32 h.info.hashSeed.toNat ++ List.replicate (headerSize - 37) 0

/-! ## What the codec does -/

/-- A write into zeros after the octets already written. -/
theorem overwrite_zeros (pre src : Bytes) {k n : Nat} (hn : pre.length ≤ n)
    (hk : n - pre.length + src.length ≤ k) :
    overwrite (pre ++ List.replicate k 0) n src =
      pre ++ List.replicate (n - pre.length) 0 ++ src ++ List.replicate (k - (n - pre.length) - src.length) 0 := by
  simp only [overwrite, List.take_append_eq_append_take, List.drop_append_eq_append_drop,
    List.take_replicate, List.drop_replicate, List.take_of_length_le hn,
    List.drop_eq_nil_of_le (show pre.length ≤ n + src.length by omega), List.nil_append, List.append_assoc]
  congr 3
  · omega
  · congr 1; omega

/-- `MarshalBinary` writes each field at its place in the spec's layout. -/
theorem marshalBinary_eq_layout (h : Header) : h.marshalBinary = h.layout := by
  have start : List.replicate headerSize (0 : UInt8) = [] ++ List.replicate 512 0 := rfl
  simp only [Header.marshalBinary, start]
  repeat rw [overwrite_zeros _ _
    (by simp only [List.length_append, List.length_ofFn, putUint32_length, putUint64_length,
      List.length_singleton, List.length_nil, List.length_replicate]; omega)
    (by simp only [List.length_append, List.length_ofFn, putUint32_length, putUint64_length,
      List.length_singleton, List.length_nil, List.length_replicate]; omega)]
  have one : List.replicate 1 (0 : UInt8) = [0] := rfl
  simp only [List.length_ofFn, List.length_append, List.length_replicate, putUint32_length, putUint64_length,
    List.length_singleton, List.length_nil, Nat.zero_add, Nat.sub_zero, Nat.reduceAdd, Nat.reduceSub,
    List.replicate_zero, List.append_nil, List.nil_append, one, Header.layout, headerSize, align512, Nat.reduceDiv,
    Nat.reduceMul, List.append_assoc]

@[simp] theorem layout_length (h : Header) : h.layout.length = headerSize := by
  simp only [Header.layout, List.length_append, List.length_ofFn, putUint32_length, putUint64_length,
    List.length_singleton, List.length_replicate]
  rfl

theorem ofNat_readUint32_putUint32 (v : UInt32) : UInt32.ofNat (readUint32 (putUint32 v.toNat)) = v := by
  have lt : v.toNat < 2 ^ 32 := v.toNat_lt_size
  apply UInt32.toNat.inj
  rw [readUint32_putUint32_self, Nat.mod_eq_of_lt lt, UInt32.toNat_ofNat_of_lt lt]

theorem Int64.toUInt64_lt (x : Int64) : x.toUInt64 < 2 ^ 64 := by
  have word : ((x.val % 2 ^ 64).toNat : Int) = x.val % 2 ^ 64 := Int.toNat_of_nonneg (Int.emod_nonneg _ (by decide))
  unfold Int64.toUInt64
  generalize (x.val % 2 ^ 64).toNat = w at word ⊢
  omega

theorem ofUInt64_readUint64_putUint64 (x : Int64) :
    Int64.ofUInt64 (readUint64 (putUint64 x.toUInt64)) = x := by
  have word := readUint64_putUint64 x.toUInt64 []
  rw [List.append_nil] at word
  rw [word, Nat.mod_eq_of_lt x.toUInt64_lt, Int64.ofUInt64_toUInt64]

theorem getD_ofFn_signature (f : Fin 7 → UInt8) : (fun i : Fin 7 => (List.ofFn f ++ [0]).getD i 0) = f := by
  funext i
  have hi : (i : Nat) < (List.ofFn f).length := by simp [List.length_ofFn]
  rw [List.getD_eq_getElem?_getD, List.getElem?_append_left hi, List.getElem?_eq_getElem hi, Option.getD_some,
    List.getElem_ofFn]

/-- `UnmarshalBinary` reads back every field of the layout. -/
theorem unmarshalBinary_layout (h : Header) : unmarshalBinary h.layout = some h := by
  simp (disch := ((try simp only [List.length_append, List.length_ofFn, putUint32_length, putUint64_length,
      List.length_singleton, List.length_replicate]); omega)) only
    [unmarshalBinary, Header.layout, slice_append_left, slice_append_right, List.getElem?_append_left,
    List.getElem?_append_right]
  simp only [List.length_append, List.length_ofFn, putUint32_length, putUint64_length, List.length_singleton,
    Nat.reduceAdd, Nat.reduceSub, slice_full, List.getElem?_cons_zero, Option.pure_def, Option.bind_eq_bind,
    Option.some_bind, getD_ofFn_signature, ofNat_readUint32_putUint32, ofUInt64_readUint64_putUint64]

/-! ## The header in the index file -/

/-- The state `writeHeader` and `readHeader` work on: `dbInfo` and the octets of the index
file. -/
structure HeaderDB where
  info : DbInfo
  index : Bytes

/-- `writeHeader` (db.go:1019-1032): the freelist is written (`flWrite`: its error or its
offset), its offset goes into `dbInfo`, and the header is marshalled at offset 0. -/
def HeaderDB.writeHeader (db : HeaderDB) (flWrite : Except Error Int64) : HeaderDB × Option Error :=
  match flWrite with
  | .error err => (db, some err)
  | .ok freelistOff =>
    let info := { db.info with freelistOff }
    let h : Header := ⟨signature, version, info⟩
    ({ info, index := overwrite db.index 0 h.marshalBinary }, none)

/-- `readHeader` (db.go:1034-1050): `headerSize` octets at offset 0 are unmarshalled (a short
file is an error, `io`), the signature checked, `dbInfo` taken from the header, the freelist
read if asked (`flRead`: its error), and `freelistOff` reset to -1. `none` is a panic. -/
def HeaderDB.readHeader (db : HeaderDB) (readFreeList : Bool) (flRead : Option Error) :
    Option (HeaderDB × Option Error) :=
  match slice db.index 0 headerSize with
  | none => some (db, some (.io 0))
  | some data => (unmarshalBinary data).map fun h =>
    if List.ofFn h.signature ≠ List.ofFn signature then (db, some .corrupted)
    else
      let db := { db with info := h.info }
      match readFreeList, flRead with
      | true, some err => (db, some err)
      | _, _ => ({ db with info := { db.info with freelistOff := ⟨-1, by omega⟩ } }, none)

/-- `db.dbInfo = h.dbInfo` on the counters of the linear-hash index. -/
def withInfo (db : LinearHash.HashDB) (info : DbInfo) : LinearHash.HashDB :=
  { db with level := info.level, count := info.count, nBlocks := info.nBlocks, splitBlockIdx := info.splitBlockIdx }

/-- `readHeader`, on a database opened on the index file a `writeHeader` that wrote the freelist
at `off` left, whatever `dbInfo` it held: `dbInfo` comes back whole but for `freelistOff`, which is
-1 unless the freelist read fails, and the error is that of the freelist read. -/
theorem readHeader_writeHeader (db : HeaderDB) (off : Int64) (info : DbInfo) (readFreeList : Bool)
    (flRead : Option Error) :
    ∃ db', (⟨info, (db.writeHeader (.ok off)).1.index⟩ : HeaderDB).readHeader readFreeList flRead =
        some (db', if readFreeList then flRead else none) ∧
      db'.info = { db.info with freelistOff := db'.info.freelistOff } ∧
      db'.info.freelistOff.val = if readFreeList ∧ flRead ≠ none then off.val else -1 := by
  have read : slice (overwrite db.index 0 (Header.marshalBinary ⟨signature, version, { db.info with freelistOff := off }⟩))
      0 headerSize = some (Header.layout ⟨signature, version, { db.info with freelistOff := off }⟩) := by
    rw [marshalBinary_eq_layout, overwrite, List.take_zero, List.nil_append, layout_length,
      slice_append_left (by simp), slice_full (layout_length _)]
  simp only [HeaderDB.writeHeader, HeaderDB.readHeader, read, unmarshalBinary_layout, Option.map_some', ne_eq,
    not_true_eq_false, if_false]
  cases readFreeList <;> cases flRead <;> exact ⟨_, rfl, rfl, by simp⟩

end UnitDB.Source.IndexHeader
