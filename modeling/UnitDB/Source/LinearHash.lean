import UnitDB.Source.Basic

/-!
# The linear-hash index of `db.go`

The second `DB` of `db.go` (db.go:1096-1373) indexes keys by a linear-hash table: the
directory has `1 << level` plus `splitBlockIdx` chains; chain `i` starts at block `i` of the
index file and goes on through overflow blocks of the data file linked by `next`; a block holds
`entriesPerBlock` slots, each with a key's hash, its key and value sizes and the offset of the
key and value in the data file. `blockIndex` picks a hash's chain, `put` writes into it, `Get`,
`Has` and `Delete` scan it, and `split` rehashes chain `splitBlockIdx` into itself and a new
chain at the end of the index file.

Modelling choices:

* the block layer is not in `src/`. A block (`blockHandle`) is its slots and `next`; the index
  file is its size and the blocks written to it, by offset (a block inside the file that no
  write reached reads as free slots, as the file is extended with zeros); the data file is its
  size, its freelist, the records `writeKeyValue` wrote and the overflow blocks, by offset;
* `readKey` and `readKeyValue` slice the record at the slot's offset by the slot's key and value
  sizes; a read that goes past the end of the data file fails (`io.EOF`), and the loop that made
  it returns the error;
* `del(i)` moves the slots after `i` up one place and clears the last one: the scans of `Get`,
  `Has`, `Delete` and `split` stop at the first free slot of a block, so the occupied slots of a
  block are its first ones;
* `entryWriter` fills its block slot by slot and, when the block is full, chains a new overflow
  block allocated from the data file;
* the data file's `allocate` takes the first hole of the freelist that holds the size, or grows
  the file; `free` puts the extent on the freelist;
* `forEachBlock` has fuel: Go walks until `next` is 0, which a cyclic chain never reaches;
  `none` stands for that and for a failed read of a block (the allocations of such a walk are
  not kept). A callback that returns an error ends the walk with its state marked failed;
* the calls of `split` that can fail, `index.extend`, the entry writers' allocations of overflow
  blocks and the writes of the two chains at the end, fail as a `SplitIO` says: each returns its
  error at once, with what came before it done. The allocations and writes of `put` and
  `Delete` do not fail;
* `uint32`, `uint16` and `uint8` arithmetic is `UInt32`'s, `UInt16`'s and `UInt8`'s; `1 << n`
  on `uint32` is `2 ^ n mod 2 ^ 32`, 0 once `n ≥ 32` as in Go;
* the salted hash, the presence filter's test and the header and block sizes are not in
  `src/`: they are the fields of `Env`.
-/

namespace UnitDB.Source.LinearHash

/-- What the index reads from outside `db.go`. -/
structure Env where
  headerSize : Nat
  blockSize : Nat
  /-- `db.hash`: `hash.WithSalt(data, db.hashSeed)`. -/
  hashOf : Bytes → UInt32
  /-- `db.filter.Test`. -/
  test : UInt32 → Bool

def entriesPerBlock : Nat := 22

/-- `MaxKeys = math.MaxUint32`. -/
def maxKeys : UInt32 := 4294967295

/-- `entry`: one slot of a block; `kvOffset = 0` marks a free slot. -/
structure Slot where
  hash : UInt32
  keySize : UInt16
  valueSize : UInt32
  expiresAt : UInt32
  kvOffset : Int
  deriving DecidableEq, Repr

def Slot.free : Slot := ⟨0, 0, 0, 0, 0⟩

/-- `kvSize()`: the octets of the key and the value. -/
def Slot.kvSize (sl : Slot) : Nat := sl.keySize.toNat + sl.valueSize.toNat

/-- `blockHandle`: its slots, and the offset of the next block of its chain (0 for none). -/
structure Block where
  entries : List Slot
  next : Int
  full : entries.length = entriesPerBlock

namespace Block

def zero : Block := ⟨List.replicate entriesPerBlock .free, 0, List.length_replicate _ _⟩

/-- `b.entries[i]`. -/
def slot (b : Block) (i : Nat) : Slot := b.entries.getD i .free

/-- `b.entries[i] = sl`. -/
def set (b : Block) (i : Nat) (sl : Slot) : Block :=
  ⟨b.entries.set i sl, b.next, by rw [List.length_set, b.full]⟩

def setNext (b : Block) (next : Int) : Block := ⟨b.entries, next, b.full⟩

/-- Modelled from the spec: `blockHandle.del(i)`, whose code is not in the sources, for the index
of a slot: the slots after `i` move up one place and the last one is cleared. -/
def del (b : Block) (i : Nat) : Block :=
  if h : i < entriesPerBlock then
    ⟨b.entries.eraseIdx i ++ [.free], b.next, by
      rw [List.length_append, List.length_eraseIdx, b.full, if_pos h]; rfl⟩
  else b

end Block

/-- Where a block is: at an offset of the index file or of the data file. -/
inductive Loc
  | index (off : Int)
  | data (off : Int)
  deriving DecidableEq, Repr

structure IndexFile where
  size : Nat
  blocks : List (Int × Block)

structure DataFile where
  size : Nat
  /-- Holes: offset and size. -/
  freelist : List (Int × Nat)
  records : List (Int × Bytes)
  blocks : List (Int × Block)

/-- The first hole that holds `n` octets gives its first `n`. -/
def takeHole (n : Nat) : List (Int × Nat) → Option (Int × List (Int × Nat))
  | [] => none
  | (off, m) :: rest =>
    if n ≤ m then some (off, if n = m then rest else (off + n, m - n) :: rest)
    else (takeHole n rest).map fun r => (r.1, (off, m) :: r.2)

namespace DataFile

def allocate (f : DataFile) (size : Nat) : DataFile × Int :=
  match takeHole size f.freelist with
  | some (off, freelist) => ({ f with freelist }, off)
  | none => ({ f with size := f.size + size }, f.size)

def free (f : DataFile) (size : Nat) (off : Int) : DataFile := { f with freelist := f.freelist ++ [(off, size)] }

/-- `writeKeyValue`: the key and then the value, at an offset `allocate` gives. -/
def writeKeyValue (f : DataFile) (key value : Bytes) : DataFile × Int :=
  let r := f.allocate (key.length + value.length)
  ({ r.1 with records := mapSet r.1.records r.2 (key ++ value) }, r.2)

@[simp] theorem allocate_blocks (f : DataFile) (size : Nat) : (f.allocate size).1.blocks = f.blocks := by
  unfold allocate; split <;> rfl

@[simp] theorem free_blocks (f : DataFile) (size : Nat) (off : Int) : (f.free size off).blocks = f.blocks := rfl

@[simp] theorem free_size (f : DataFile) (size : Nat) (off : Int) : (f.free size off).size = f.size := rfl

@[simp] theorem writeKeyValue_blocks (f : DataFile) (key value : Bytes) :
    (f.writeKeyValue key value).1.blocks = f.blocks := by
  simp [writeKeyValue]

@[simp] theorem allocate_records (f : DataFile) (size : Nat) : (f.allocate size).1.records = f.records := by
  unfold allocate; split <;> rfl

@[simp] theorem free_records (f : DataFile) (size : Nat) (off : Int) : (f.free size off).records = f.records := rfl

theorem writeKeyValue_records (f : DataFile) (key value : Bytes) :
    (f.writeKeyValue key value).1.records = mapSet f.records (f.writeKeyValue key value).2 (key ++ value) := by
  simp [writeKeyValue]

def record (f : DataFile) (off : Int) : Bytes := (mapGet f.records off).getD []

/-- The key a slot's record holds. -/
def slotKey (f : DataFile) (sl : Slot) : Bytes := (f.record sl.kvOffset).take sl.keySize.toNat

/-- The key and the value a slot's record holds. -/
def slotKeyValue (f : DataFile) (sl : Slot) : Bytes × Bytes :=
  (f.slotKey sl, ((f.record sl.kvOffset).drop sl.keySize.toNat).take sl.valueSize.toNat)

/-- `n` octets at `off` lie inside the file. -/
def fits (f : DataFile) (off : Int) (n : Nat) : Bool := decide (0 ≤ off ∧ off + n ≤ f.size)

/-- `readKey`: the slot's key, `io.EOF` past the end of the file. -/
def readKey (f : DataFile) (sl : Slot) : Option Bytes :=
  if f.fits sl.kvOffset sl.keySize.toNat then some (f.slotKey sl) else none

/-- `readKeyValue`: the slot's key and value, `io.EOF` past the end of the file. -/
def readKeyValue (f : DataFile) (sl : Slot) : Option (Bytes × Bytes) :=
  if f.fits sl.kvOffset sl.kvSize then some (f.slotKeyValue sl) else none

/-- A slot whose key and value lie inside the file reads them. -/
theorem reads_of_inside {f : DataFile} {sl : Slot} (inside : 0 ≤ sl.kvOffset ∧ sl.kvOffset + sl.kvSize ≤ f.size) :
    f.readKey sl = some (f.slotKey sl) ∧ f.readKeyValue sl = some (f.slotKeyValue sl) := by
  have key : sl.kvOffset + sl.keySize.toNat ≤ f.size := by
    have := inside.2
    simp only [Slot.kvSize, Nat.cast_add] at this
    omega
  exact ⟨if_pos (decide_eq_true ⟨inside.1, key⟩), if_pos (decide_eq_true inside)⟩

end DataFile

/-- The index's part of `DB`: `dbInfo`'s counters and the two files. -/
structure HashDB where
  level : UInt8
  count : UInt32
  nBlocks : UInt32
  splitBlockIdx : UInt32
  index : IndexFile
  data : DataFile

/-- `1 << n` on `uint32`. -/
def shl1 (n : Nat) : UInt32 := UInt32.ofNat (2 ^ n)

section
variable (E : Env)

/-- `blockOffset`. -/
def blockOffset (idx : UInt32) : Int := E.headerSize + E.blockSize * idx.toNat

/-- `Open` on empty files: the header and block 0 in the index file, the header in the data
file, one block. -/
def HashDB.fresh : HashDB := ⟨0, 0, 1, 0, ⟨E.headerSize + E.blockSize, []⟩, ⟨E.headerSize, [], [], []⟩⟩

/-- Modelled from the spec: `entryWriter`, whose code is not in the sources: the filled blocks,
each chained to the next, and the block being filled. -/
structure EntryWriter where
  done : List (Loc × Block)
  cur : Loc × Block
  slotIdx : Nat

def EntryWriter.start (loc : Loc) : EntryWriter := ⟨[], (loc, .zero), 0⟩

/-- Modelled from the spec: `entryWriter.insert`, whose code is not in the sources: the next slot
of the block, or, when it is full, slot 0 of an overflow block "allocated lazily from the data
file's freelist when the tail block is full". The allocation fails with `allocErr`, if any, and
then nothing changes. -/
def EntryWriter.insert (w : EntryWriter) (data : DataFile) (sl : Slot) (allocErr : Option Error) :
    Except Error (EntryWriter × DataFile) :=
  if w.slotIdx = entriesPerBlock then
    match allocErr with
    | some err => .error err
    | none =>
      let r := data.allocate E.blockSize
      .ok (⟨w.done ++ [(w.cur.1, w.cur.2.setNext r.2)], (.data r.2, Block.zero.set 0 sl), 1⟩, r.1)
  else .ok (⟨w.done, (w.cur.1, w.cur.2.set w.slotIdx sl), w.slotIdx + 1⟩, data)

/-- The blocks `write` writes. -/
def EntryWriter.blocks (w : EntryWriter) : List (Loc × Block) := w.done ++ [w.cur]

namespace HashDB

/-- `blockIndex`. -/
def blockIndex (db : HashDB) (hash : UInt32) : UInt32 :=
  let idx := hash &&& (shl1 db.level.toNat - 1)
  if idx < db.splitBlockIdx then hash &&& (shl1 (db.level + 1).toNat - 1) else idx

def readBlock (db : HashDB) : Loc → Option Block
  | .index off => if off + E.blockSize ≤ db.index.size then some ((mapGet db.index.blocks off).getD .zero) else none
  | .data off => mapGet db.data.blocks off

def writeBlock (db : HashDB) : Loc → Block → HashDB
  | .index off, b => { db with index := { db.index with blocks := mapSet db.index.blocks off b } }
  | .data off, b => { db with data := { db.data with blocks := mapSet db.data.blocks off b } }

/-- `forEachBlock`: `cb` on each block of a chain until it returns `true`; the next block is
read from the data file at `next`, and `next = 0` ends the chain. -/
def forEachBlock {σ : Type} (db : HashDB) (cb : σ → Loc → Block → σ × Bool) : Nat → Loc → σ → Option σ
  | 0, _, _ => none
  | fuel + 1, loc, s =>
    match db.readBlock E loc with
    | none => none
    | some b =>
      if (cb s loc b).2 || b.next = 0 then some (cb s loc b).1
      else db.forEachBlock cb fuel (.data b.next) (cb s loc b).1

/-- Enough steps for a chain that visits no block twice. -/
def walkFuel (db : HashDB) : Nat := db.data.blocks.length + 1

/-- Where chain `i` starts. -/
def head (i : UInt32) : Loc := .index (blockOffset E i)

end HashDB

end

/-- Where the slot loops of `put`, `Get`, `Has` and `Delete` stop: at a free slot, or at a slot
under hash `h` with the key's size whose key, as the loop reads it with `read`, is `key` or
cannot be read. -/
def Stops (read : Slot → Option Bytes) (h : UInt32) (key : Bytes) (sl : Slot) : Bool :=
  sl.kvOffset = 0 || (h = sl.hash && key.length.toUInt16 = sl.keySize && (read sl).all (· = key))

/-- Where the slot loop of `Get`, `Has` or `Delete` leaves a block. -/
inductive Scan
  /-- Past the last slot. -/
  | pass
  /-- At a free slot: the walk stops if the block is the last. -/
  | free
  /-- At a slot whose key cannot be read: the callback returns the error. -/
  | failed
  /-- At slot `i`, which holds the key. -/
  | found (i : Nat)
  deriving DecidableEq, Repr

/-- One block of `Get`, `Has` or `Delete`, reading keys with `read`. -/
def scanBlock (read : Slot → Option Bytes) (h : UInt32) (key : Bytes) (b : Block) : Scan :=
  match b.entries.findIdx? (Stops read h key) with
  | none => .pass
  | some i =>
    if (b.slot i).kvOffset = 0 then .free
    else if (read (b.slot i)).isSome then .found i else .failed

/-- `Get`'s callback, reading key and value together: the value of the slot holding the key stops
the walk; `none` is a failed read. -/
def getBlock (data : DataFile) (h : UInt32) (key : Bytes) (ret : Option (Option Bytes)) (_ : Loc) (b : Block) :
    Option (Option Bytes) × Bool :=
  match scanBlock (fun sl => (data.readKeyValue sl).map (·.1)) h key b with
  | .pass => (ret, false)
  | .free => (ret, b.next = 0)
  | .failed => (none, true)
  | .found i => ((data.readKeyValue (b.slot i)).map fun kv => some kv.2, true)

/-- `Has`'s callback, reading the key only. -/
def hasBlock (data : DataFile) (h : UInt32) (key : Bytes) (found : Option Bool) (_ : Loc) (b : Block) :
    Option Bool × Bool :=
  match scanBlock data.readKey h key b with
  | .pass => (found, false)
  | .free => (found, b.next = 0)
  | .failed => (none, true)
  | .found _ => (some true, true)

/-- `Delete`'s callback: the block `b` and `entryIdx` of the slot holding the key. -/
def deleteBlock (data : DataFile) (h : UInt32) (key : Bytes) (found : Option (Option (Loc × Block × Nat))) (loc : Loc)
    (b : Block) : Option (Option (Loc × Block × Nat)) × Bool :=
  match scanBlock data.readKey h key b with
  | .pass => (found, false)
  | .free => (found, b.next = 0)
  | .failed => (none, true)
  | .found i => (some (some (loc, b, i)), true)

section
variable (E : Env)

namespace HashDB

/-- `Get`: the value of the first slot of the chain holding `key`; `some none` is `nil`, `none`
an error. -/
def get (db : HashDB) (key : Bytes) : Option (Option Bytes) :=
  if E.test (E.hashOf key) then
    (db.forEachBlock E (getBlock db.data (E.hashOf key) key) db.walkFuel (head E (db.blockIndex (E.hashOf key)))
      (some none)).join
  else some none

/-- `Has`. -/
def has (db : HashDB) (key : Bytes) : Option Bool :=
  if E.test (E.hashOf key) then
    (db.forEachBlock E (hasBlock db.data (E.hashOf key) key) db.walkFuel (head E (db.blockIndex (E.hashOf key)))
      (some false)).join
  else some false

/-- The end of `Delete`: slot `i` of block `b` at `loc` is removed (`del`), its key and value
freed and the count decreased. -/
def deleteAt (db : HashDB) (loc : Loc) (b : Block) (i : Nat) : HashDB :=
  let db' := db.writeBlock loc (b.del i)
  { db' with data := db'.data.free (b.slot i).kvSize (b.slot i).kvOffset, count := db.count - 1 }

/-- `Delete`. -/
def delete (db : HashDB) (key : Bytes) : HashDB × Option Error :=
  if E.test (E.hashOf key) then
    match (db.forEachBlock E (deleteBlock db.data (E.hashOf key) key) db.walkFuel
      (head E (db.blockIndex (E.hashOf key))) (some none)).join with
    | none => (db, some (.io 0))
    | some none => (db, none)
    | some (some (loc, b, i)) => (db.deleteAt loc b i, none)
  else (db, none)

end HashDB

/-- What `put`'s callback keeps: the data file (it may allocate an overflow block), the block `b`
points to, `originalB`, `entryIdx`, and whether it returned the error of a failed `readKey`. -/
structure PutScan where
  data : DataFile
  b : Loc × Block
  originalB : Option (Loc × Block)
  entryIdx : Nat
  failed : Bool

/-- `put`'s callback on one block: stop at the first free slot, or the slot holding the key or
whose key cannot be read; past the last slot of the last block, chain a new overflow block and
stop at its slot 0. -/
def putBlock (h : UInt32) (key : Bytes) (s : PutScan) (loc : Loc) (curb : Block) : PutScan × Bool :=
  match curb.entries.findIdx? (Stops s.data.readKey h key) with
  | some i =>
    ({ s with
        b := (loc, curb)
        entryIdx := i
        failed := decide ((curb.slot i).kvOffset ≠ 0) && (s.data.readKey (curb.slot i)).isNone }, true)
  | none =>
    if curb.next = 0 then
      let r := s.data.allocate E.blockSize
      (⟨r.1, (.data r.2, .zero), some (loc, curb.setNext r.2), 0, false⟩, true)
    else ({ s with b := (loc, curb), entryIdx := entriesPerBlock - 1 }, false)

namespace HashDB

/-- The end of `put`, after the walk: a new key takes slot `entryIdx` of `b` (unless the count
is `MaxKeys`), a present key's slot is rewritten and its old key and value freed; the key and
value go to the data file, then `b` and `originalB` are written. -/
def putAt (db : HashDB) (hash : UInt32) (key value : Bytes) (expiresAt : UInt32) (s : PutScan) :
    HashDB × Option Error :=
  let old := s.b.2.slot s.entryIdx
  if old.kvOffset = 0 ∧ db.count = maxKeys then ({ db with data := s.data }, some .full)
  else
    let w := s.data.writeKeyValue key value
    let written := ({ db with count := if old.kvOffset = 0 then db.count + 1 else db.count, data := w.1 }).writeBlock
      s.b.1 (s.b.2.set s.entryIdx ⟨hash, key.length.toUInt16, value.length.toUInt32, expiresAt, w.2⟩)
    let linked := match s.originalB with
      | some (loc, ob) => written.writeBlock loc ob
      | none => written
    (if old.kvOffset = 0 then linked else { linked with data := linked.data.free old.kvSize old.kvOffset }, none)

/-- `put`. -/
def put (db : HashDB) (hash : UInt32) (key value : Bytes) (expiresAt : UInt32) : HashDB × Option Error :=
  match db.forEachBlock E (putBlock E hash key) db.walkFuel (head E (db.blockIndex hash))
      ⟨db.data, (.index 0, .zero), none, 0, false⟩ with
  | none => (db, some (.io 0))
  | some s => if s.failed then (db, some (.io 0)) else db.putAt hash key value expiresAt s

end HashDB

/-- How the calls of one `split` that can fail end, `none` for success: `index.extend`; the
`k`-th allocation of an overflow block by its entry writers; the writes of the new chain's and
of the split chain's blocks. -/
structure SplitIO where
  extend : Option Error
  overflow : List (Option Error)
  writeNew : Option Error
  writeUpdated : Option Error
  deriving DecidableEq, Repr

/-- A `split` whose calls all succeed. -/
def SplitIO.reliable : SplitIO := ⟨none, [], none, none⟩

/-- What `split`'s callback keeps: the writers of the rewritten chain and of the new chain, the
data file, the overflow blocks of the old chain, and the error an insert returned. -/
structure SplitScan where
  updated : EntryWriter
  created : EntryWriter
  data : DataFile
  overflowBlocks : List Int
  err : Option Error

/-- The body of `split`'s slot loop: the slot goes to the writer of the chain `blockIndex` now
gives its hash; after an insert returned an error, the loop has returned. -/
def routeSlot (db : HashDB) (updatedBlockIdx : UInt32) (io : SplitIO) (s : SplitScan) (sl : Slot) : SplitScan :=
  if s.err.isSome then s
  else
    let allocErr := io.overflow.getD (s.updated.done.length + s.created.done.length) none
    if db.blockIndex sl.hash = updatedBlockIdx then
      match s.updated.insert E s.data sl allocErr with
      | .ok r => { s with updated := r.1, data := r.2 }
      | .error err => { s with err := some err }
    else
      match s.created.insert E s.data sl allocErr with
      | .ok r => { s with created := r.1, data := r.2 }
      | .error err => { s with err := some err }

/-- `split`'s callback on one block: each occupied slot before the first free one goes to the
chain `blockIndex` now gives its hash, and the block's `next` is kept to be freed; an insert's
error stops the walk. -/
def splitBlock (db : HashDB) (updatedBlockIdx : UInt32) (io : SplitIO) (s : SplitScan) (_ : Loc) (curb : Block) :
    SplitScan × Bool :=
  let routed := (curb.entries.takeWhile (·.kvOffset ≠ 0)).foldl (routeSlot E db updatedBlockIdx io) s
  if routed.err.isSome then (routed, true)
  else
    ({ routed with overflowBlocks := if curb.next ≠ 0 then routed.overflowBlocks ++ [curb.next] else routed.overflowBlocks },
      false)

namespace HashDB

/-- The index file grown by a block and the split index advanced, wrapping to 0 and raising the
level when it reaches `1 << level`: what `split` does before its walk. -/
def grow (db : HashDB) : HashDB :=
  let wraps := db.splitBlockIdx + 1 = shl1 db.level.toNat
  { db with
    index := { db.index with size := db.index.size + E.blockSize },
    splitBlockIdx := if wraps then 0 else db.splitBlockIdx + 1,
    level := if wraps then db.level + 1 else db.level }

/-- The end of a `split` whose writes succeed: the old overflow blocks freed, the writers' blocks
written, one more block. -/
def splitAt (grown : HashDB) (s : SplitScan) : HashDB :=
  let written := (s.created.blocks ++ s.updated.blocks).foldl (fun db lb => db.writeBlock lb.1 lb.2)
    { grown with data := s.overflowBlocks.foldl (fun f off => f.free E.blockSize off) s.data }
  { written with nBlocks := written.nBlocks + 1 }

/-- `split`: chain `splitBlockIdx` is rehashed, under the grown directory, into itself and a new
chain at the old end of the index file. Once `index.extend` has succeeded the directory is grown,
and an error of the walk, of an insert or of a write returns with it grown and `nBlocks` as it
was. -/
def split (db : HashDB) (io : SplitIO) : HashDB × Option Error :=
  match io.extend with
  | some err => (db, some err)
  | none =>
    match (db.grow E).forEachBlock E (splitBlock E (db.grow E) db.splitBlockIdx io) (db.grow E).walkFuel
        (head E db.splitBlockIdx)
        ⟨.start (head E db.splitBlockIdx), .start (.index db.index.size), db.data, [], none⟩ with
    | none => (db.grow E, some (.io 0))
    | some s =>
      let freed : HashDB := { db.grow E with data := s.overflowBlocks.foldl (fun f off => f.free E.blockSize off) s.data }
      match s.err, io.writeNew, io.writeUpdated with
      | some err, _, _ => ({ db.grow E with data := s.data }, some err)
      | none, some err, _ => (freed, some err)
      | none, none, some err => (s.created.blocks.foldl (fun db lb => db.writeBlock lb.1 lb.2) freed, some err)
      | none, none, none => ((db.grow E).splitAt E s, none)

end HashDB

end

end UnitDB.Source.LinearHash
