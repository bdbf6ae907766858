import UnitDB.Source.TopicTrie
import UnitDB.Source.LinearHash

/-!
# The first index of `db.go`

The first `DB` of `db.go` (db.go:1-800, the `tracedb` sources) keys messages by their id under a
topic. Its linear-hash index has the layout of the second one (`LinearHash`): chain `i` starts at
block `i` of the index file and goes on through overflow blocks of the data file; a slot holds the
key's hash, the topic size, the value size, the expiry time and the offset of the record, which
holds the topic, the key and the value. `put` (db.go:545-618) writes a key into its chain and,
except when it had to chain a new overflow block, appends the hash to the presence filter and
adds an expiring slot to the time window; `delete` (db.go:717-761) removes the slot of a key the
filter may hold; `expireOldEntries` (db.go:421-470) removes the slots of expired window entries
from the index and their seqs from the trie. `PutEntry` (db.go:531-543) adds the id's hash to the
trie, puts the entry and, when the load factor is exceeded, calls `split` (db.go:620-679), which
rehashes chain `splitBlockIdx` into itself and a new chain.

Modelling choices, where they differ from `LinearHash`:

* a record of the data file is its topic, key and value; `readKey` and `readTopic` return the
  parts of the record at the slot's offset, and fail where no record was written;
  `kvSize()` is the topic, `keySize` and the value;
* the presence filter is the list of hashes `filter.Append` was given; `Test` holds for each of
  them, and for the others exactly where the filter's `falsePositive` (an argument) says;
* the time window is the list of slots `timeWindow.add` was given; `expireOldEntries` of the
  window returns an argument list of slots;
* the trie is `message/trie.go`'s (`TopicTrie`), with the key hash as the seq, and
  `topic.Unmarshal(val)` gives the topic's parts through an argument;
* the fallible calls of `put` (the overflow block's allocation, `writeKeyValue`, the two block
  writes) fail as an argument of type `PutIO` says; a failed block write writes nothing. Reads
  fail where no block was written; `delete`'s and `expireOldEntries`' writes do not fail;
* `put`'s `defer db.data.free(...)` of an overwritten record runs on every return after it,
  errors included;
* `split`'s index and data-file calls do not fail (`PutEntry` drops the error `split` returns;
  the second index's model, `LinearHash`, has them fail); the overflow blocks it collects are
  never freed in this version, and the model drops them;
* the load-factor test of `PutEntry` is on doubles: `loadAbove` decides it exactly, by the
  rounding of the quotient to the nearest double;
* `expireOldEntries` takes `db.mu.Lock()` and defers the unlock inside its loop, so a second
  expired entry that passes the filter waits forever for the lock the run already holds: the
  model returns `none` there.
-/

namespace UnitDB.Source.TraceDB
open UnitDB.Source
open UnitDB.Source.LinearHash (Loc takeHole shl1 entriesPerBlock maxKeys)

/-- What the first index reads from outside `db.go`. -/
structure Env where
  headerSize : Nat
  blockSize : Nat
  /-- `db.hash`: `hash.WithSalt(data, db.hashSeed)`. -/
  hashOf : Bytes → UInt32
  /-- Where the filter answers `Test` for a hash it was not given. -/
  falsePositive : UInt64 → Bool
  /-- `topic.Unmarshal(val)` followed by `topic.Parts`. -/
  topicParts : Bytes → List Part

/-- `keySize = 16`. -/
def keySize : Nat := 16

/-- `entry`: one slot; `kvOffset = 0` marks a free slot. -/
structure Slot where
  hash : UInt32
  topicSize : UInt16
  valueSize : UInt32
  expiresAt : UInt32
  kvOffset : Int
  deriving DecidableEq, Repr

def Slot.free : Slot := ⟨0, 0, 0, 0, 0⟩

/-- `kvSize()`. -/
def Slot.kvSize (sl : Slot) : Nat := sl.topicSize.toNat + keySize + sl.valueSize.toNat

/-- `blockHandle`: its slots and the offset of the next block of the chain. -/
structure Block where
  entries : List Slot
  next : Int
  full : entries.length = entriesPerBlock

namespace Block

def zero : Block := ⟨List.replicate entriesPerBlock .free, 0, List.length_replicate _ _⟩

def slot (b : Block) (i : Nat) : Slot := b.entries.getD i .free

def set (b : Block) (i : Nat) (sl : Slot) : Block :=
  ⟨b.entries.set i sl, b.next, by rw [List.length_set, b.full]⟩

def setNext (b : Block) (next : Int) : Block := ⟨b.entries, next, b.full⟩

/-- Modelled from the spec: `blockHandle.del(i)`, whose code is not in the sources: the slots
after `i` move up one place and the last one is cleared. -/
def del (b : Block) (i : Nat) : Block :=
  if h : i < entriesPerBlock then
    ⟨b.entries.eraseIdx i ++ [.free], b.next, by
      rw [List.length_append, List.length_eraseIdx, b.full, if_pos h]; rfl⟩
  else b

end Block

/-- A record of the data file: the topic, the key and the value. -/
structure Record where
  topic : Bytes
  key : Bytes
  value : Bytes
  deriving DecidableEq, Repr

structure IndexFile where
  size : Nat
  blocks : List (Int × Block)

structure DataFile where
  size : Nat
  freelist : List (Int × Nat)
  records : List (Int × Record)
  blocks : List (Int × Block)

namespace DataFile

/-- The first hole that holds `size` octets, or the end of the file. -/
def allocate (f : DataFile) (size : Nat) : DataFile × Int :=
  match takeHole size f.freelist with
  | some (off, freelist) => ({ f with freelist }, off)
  | none => ({ f with size := f.size + size }, f.size)

def free (f : DataFile) (size : Nat) (off : Int) : DataFile := { f with freelist := f.freelist ++ [(off, size)] }

/-- `writeKeyValue(topic, key, value)`: the record at an offset `allocate` gives. -/
def writeKeyValue (f : DataFile) (topic key value : Bytes) : DataFile × Int :=
  let r := f.allocate (topic.length + key.length + value.length)
  ({ r.1 with records := mapSet r.1.records r.2 ⟨topic, key, value⟩ }, r.2)

def readKey (f : DataFile) (sl : Slot) : Except Error Bytes :=
  match mapGet f.records sl.kvOffset with
  | some r => .ok r.key
  | none => .error (.io 0)

def readTopic (f : DataFile) (sl : Slot) : Except Error Bytes :=
  match mapGet f.records sl.kvOffset with
  | some r => .ok r.topic
  | none => .error (.io 0)

end DataFile

/-- The first `DB`: `dbInfo`'s counters, the two files, the presence filter, the time window and
the trie. -/
structure DB where
  level : UInt8
  count : UInt32
  nBlocks : UInt32
  splitBlockIdx : UInt32
  index : IndexFile
  data : DataFile
  /-- The hashes given to `filter.Append`. -/
  filter : List UInt64
  /-- The slots given to `timeWindow.add`. -/
  window : List Slot
  trie : TopicTrie.Trie

section
variable (E : Env)

namespace DB

def blockOffset (idx : UInt32) : Int := E.headerSize + E.blockSize * idx.toNat

def head (i : UInt32) : Loc := .index (blockOffset E i)

/-- `blockIndex`. -/
def blockIndex (db : DB) (hash : UInt32) : UInt32 :=
  let idx := hash &&& (shl1 db.level.toNat - 1)
  if idx < db.splitBlockIdx then hash &&& (shl1 (db.level + 1).toNat - 1) else idx

/-- `filter.Test`. -/
def test (db : DB) (h : UInt64) : Bool := h ∈ db.filter || E.falsePositive h

def readBlock (db : DB) : Loc → Option Block
  | .index off => if off + E.blockSize ≤ db.index.size then some ((mapGet db.index.blocks off).getD .zero) else none
  | .data off => mapGet db.data.blocks off

def writeBlock (db : DB) : Loc → Block → DB
  | .index off, b => { db with index := { db.index with blocks := mapSet db.index.blocks off b } }
  | .data off, b => { db with data := { db.data with blocks := mapSet db.data.blocks off b } }

/-- `forEachBlock` (db.go:257-275): `cb` on each block of a chain until it says stop or fails; a
failed read is an error; `none` is a walk that has not ended within `fuel` blocks (Go walks a
cyclic chain forever). -/
def forEachBlock {σ : Type} (db : DB) (cb : σ → Loc → Block → σ × Bool × Option Error) :
    Nat → Loc → σ → Option (σ × Option Error)
  | 0, _, _ => none
  | fuel + 1, loc, s =>
    match db.readBlock E loc with
    | none => some (s, some (.io 0))
    | some b =>
      let r := cb s loc b
      if r.2.1 || r.2.2.isSome then some (r.1, r.2.2)
      else if b.next = 0 then some (r.1, none)
      else db.forEachBlock cb fuel (.data b.next) r.1

def walkFuel (db : DB) : Nat := db.data.blocks.length + 1

end DB

/-! ## `put` -/

/-- The outcomes of `put`'s fallible calls: `none` where the call succeeds. -/
structure PutIO where
  /-- `createOverflowBlock`'s `db.data.allocate(blockSize)`. -/
  allocate : Option Error
  writeKeyValue : Option Error
  /-- `b.write()`. -/
  write : Option Error
  /-- `originalB.write()`. -/
  writeOriginal : Option Error

/-- The slot loop of `put`'s callback on one slot: stop at a free slot, or at a slot of the same
hash whose key is `key` or cannot be read (with that error). -/
def putSlot (data : DataFile) (h : UInt32) (key : Bytes) (sl : Slot) : Option (Option Error) :=
  if sl.kvOffset = 0 then some none
  else if h = sl.hash then
    match data.readKey sl with
    | .ok k => if key = k then some none else none
    | .error err => some (some err)
  else none

/-- What `put`'s callback keeps: the data file, the block `b` points to, `originalB`, `entryIdx`. -/
structure PutScan where
  data : DataFile
  b : Loc × Block
  originalB : Option (Loc × Block)
  entryIdx : Nat

/-- `put`'s callback (db.go:556-587). -/
def putBlock (io : PutIO) (h : UInt32) (key : Bytes) (s : PutScan) (loc : Loc) (curb : Block) :
    PutScan × Bool × Option Error :=
  match curb.entries.findIdx? (fun sl => (putSlot s.data h key sl).isSome) with
  | some i => ({ s with b := (loc, curb), entryIdx := i }, true, (putSlot s.data h key (curb.slot i)).join)
  | none =>
    if curb.next = 0 then
      match io.allocate with
      | some err => ({ s with b := (loc, curb), entryIdx := entriesPerBlock - 1 }, false, some err)
      | none =>
        let r := s.data.allocate E.blockSize
        (⟨r.1, (.data r.2, .zero), some (loc, curb.setNext r.2), 0⟩, true, none)
    else ({ s with b := (loc, curb), entryIdx := entriesPerBlock - 1 }, false, none)

namespace DB

/-- A block write: nothing is written when it fails. -/
def writeBlockIO (db : DB) (fails : Option Error) (loc : Loc) (b : Block) : DB × Option Error :=
  match fails with
  | some err => (db, some err)
  | none => (db.writeBlock loc b, none)

/-- The end of `put`, after the walk (db.go:592-617). `free` is the deferred free of an
overwritten record, applied at every return after it. -/
def putAt (db : DB) (io : PutIO) (hash : UInt32) (topic key value : Bytes) (expiresAt : UInt32)
    (s : PutScan) : DB × Option Error :=
  let old := s.b.2.slot s.entryIdx
  let db := { db with data := s.data }
  if old.kvOffset = 0 ∧ db.count = maxKeys then (db, some .full)
  else
    let db := if old.kvOffset = 0 then { db with count := db.count + 1 } else db
    let free (db : DB) : DB :=
      if old.kvOffset = 0 then db else { db with data := db.data.free old.kvSize old.kvOffset }
    match io.writeKeyValue with
    | some err => (free db, some err)
    | none =>
      let w := db.data.writeKeyValue topic key value
      let sl : Slot := ⟨hash, topic.length.toUInt16, value.length.toUInt32, expiresAt, w.2⟩
      let db := { db with data := w.1 }
      match db.writeBlockIO io.write s.b.1 (s.b.2.set s.entryIdx sl) with
      | (db, some err) => (free db, some err)
      | (db, none) =>
        match s.originalB with
        | some (loc, ob) =>
          let r := db.writeBlockIO io.writeOriginal loc ob
          (free r.1, r.2)
        | none =>
          let db := { db with filter := db.filter ++ [hash.toUInt64] }
          let db := if expiresAt > 0 then { db with window := db.window ++ [sl] } else db
          (free db, none)

/-- `put(topic, key, value, expiresAt)`. -/
def put (db : DB) (io : PutIO) (topic key value : Bytes) (expiresAt : UInt32) : DB × Option Error :=
  match db.forEachBlock E (putBlock E io (E.hashOf key) key) db.walkFuel (head E (db.blockIndex (E.hashOf key)))
      ⟨db.data, (.index 0, .zero), none, 0⟩ with
  | none => (db, some (.io 0))
  | some (s, some err) => ({ db with data := s.data }, some err)
  | some (s, none) => db.putAt io (E.hashOf key) topic key value expiresAt s

end DB

/-! ## `delete` and `expireOldEntries` -/

/-- The slot loop of `delete`'s callback: stop at a free slot (and end the walk if the block is
the last), or at a slot of the same hash whose key is `key` or cannot be read. -/
def deleteBlock (data : DataFile) (h : UInt32) (key : Bytes) (found : Option (Loc × Block × Nat)) (loc : Loc)
    (b : Block) : Option (Loc × Block × Nat) × Bool × Option Error :=
  match b.entries.findIdx? (fun sl => sl.kvOffset = 0 || (h = sl.hash && (match data.readKey sl with
      | .ok k => key = k
      | .error _ => true))) with
  | none => (found, false, none)
  | some i =>
    if (b.slot i).kvOffset = 0 then (found, b.next = 0, none)
    else match data.readKey (b.slot i) with
      | .ok _ => (some (loc, b, i), true, none)
      | .error err => (found, true, some err)

/-- The slot loop of `expireOldEntries`' callback: stop at a free slot (and end the walk if the
block is the last), or at the first slot with the entry's hash. -/
def expireBlock (h : UInt32) (found : Option (Loc × Block × Nat)) (loc : Loc) (b : Block) :
    Option (Loc × Block × Nat) × Bool × Option Error :=
  match b.entries.findIdx? (fun sl => sl.kvOffset = 0 || h = sl.hash) with
  | none => (found, false, none)
  | some i =>
    if (b.slot i).kvOffset = 0 then (found, b.next = 0, none)
    else (some (loc, b, i), true, none)

namespace DB

/-- The end of `delete` and of one step of `expireOldEntries`: slot `i` of block `b` is removed
(`del`), the block written, the record freed and the count decreased. -/
def deleteAt (db : DB) (loc : Loc) (b : Block) (i : Nat) : DB :=
  let db' := db.writeBlock loc (b.del i)
  { db' with data := db'.data.free (b.slot i).kvSize (b.slot i).kvOffset, count := db.count - 1 }

/-- `delete(key)`. -/
def delete (db : DB) (key : Bytes) : DB × Option Error :=
  if !db.test E (E.hashOf key).toUInt64 then (db, none)
  else
    match db.forEachBlock E (deleteBlock db.data (E.hashOf key) key) db.walkFuel
        (head E (db.blockIndex (E.hashOf key))) none with
    | none => (db, some (.io 0))
    | some (_, some err) => (db, some err)
    | some (none, none) => (db, none)
    | some (some (loc, b, i), none) => (db.deleteAt loc b i, none)

/-- One expired entry of `expireOldEntries`, the lock already held: the first slot of the chain
with the entry's hash is found, its topic read, the hash removed from the trie under that topic,
and, if the trie held it, the slot removed. -/
def expireOne (db : DB) (entry : Slot) : DB :=
  match db.forEachBlock E (expireBlock entry.hash) db.walkFuel (head E (db.blockIndex entry.hash)) none with
  | some (some (loc, b, i), none) =>
    match db.data.readTopic (b.slot i) with
    | .error _ => db
    | .ok val =>
      match db.trie.remove (E.topicParts val) (b.slot i).hash.toUInt64 with
      | (trie, true) => { db.deleteAt loc b i with trie }
      | (_, false) => db
  | _ => db

/-- The loop of `expireOldEntries` over the expired window entries; `locked` once an entry has
passed the filter. An entry the filter misses is skipped; the next entry that passes it after the
first waits for `db.mu` forever (`none`). -/
def expireLoop (locked : Bool) : DB → List Slot → Option DB
  | db, [] => some db
  | db, entry :: rest =>
    if !db.test E entry.hash.toUInt64 then expireLoop locked db rest
    else if locked then none
    else expireLoop true (db.expireOne E entry) rest

/-- `expireOldEntries`, given what `timeWindow.expireOldEntries()` returned. -/
def expireOldEntries (db : DB) (expired : List Slot) : Option DB :=
  expireLoop E false db expired

end DB

/-! ## `split` and the end of `PutEntry` -/

/-- Modelled from the spec: `entryWriter`, whose code is not in the sources: the filled blocks,
each chained to the next, and the block being filled. -/
structure EntryWriter where
  done : List (Loc × Block)
  cur : Loc × Block
  slotIdx : Nat

def EntryWriter.start (loc : Loc) : EntryWriter := ⟨[], (loc, .zero), 0⟩

/-- Modelled from the spec: `entryWriter.insert`, whose code is not in the sources: the next slot
of the block, or slot 0 of a new overflow block when it is full (the spec: "an overflow block is
allocated lazily from the data file's freelist when the tail block is full"). -/
def EntryWriter.insert (w : EntryWriter) (data : DataFile) (sl : Slot) : EntryWriter × DataFile :=
  if w.slotIdx = entriesPerBlock then
    let r := data.allocate E.blockSize
    (⟨w.done ++ [(w.cur.1, w.cur.2.setNext r.2)], (.data r.2, Block.zero.set 0 sl), 1⟩, r.1)
  else (⟨w.done, (w.cur.1, w.cur.2.set w.slotIdx sl), w.slotIdx + 1⟩, data)

/-- The blocks `write` writes. -/
def EntryWriter.blocks (w : EntryWriter) : List (Loc × Block) := w.done ++ [w.cur]

/-- What `split`'s callback keeps: the writers of the rewritten chain and of the new chain, and the
data file. The old chain's overflow blocks it collects are never freed in this version (the loop
that frees them is commented out), so the model does not keep them. -/
structure SplitScan where
  updated : EntryWriter
  created : EntryWriter
  data : DataFile

/-- The body of `split`'s slot loop: the slot goes to the writer of the chain `blockIndex` now
gives its hash. -/
def routeSlot (db : DB) (updatedBlockIdx : UInt32) (s : SplitScan) (sl : Slot) : SplitScan :=
  if db.blockIndex sl.hash = updatedBlockIdx then
    let r := s.updated.insert E s.data sl
    { s with updated := r.1, data := r.2 }
  else
    let r := s.created.insert E s.data sl
    { s with created := r.1, data := r.2 }

/-- `split`'s callback on one block (db.go:642-662): each occupied slot before the first free one
goes to the chain `blockIndex` now gives its hash, and the walk goes on. -/
def splitBlock (db : DB) (updatedBlockIdx : UInt32) (s : SplitScan) (_ : Loc) (curb : Block) :
    SplitScan × Bool × Option Error :=
  ((curb.entries.takeWhile (·.kvOffset ≠ 0)).foldl (routeSlot E db updatedBlockIdx) s, false, none)

/-- `float64(count)/float64(product) > loadFactor` on doubles, for `count` and `product` below
`2^53`, which convert exactly. `loadFactor` is the double `6305039478318694 / 2^53` nearest 0.7;
a quotient rounded to nearest is above it exactly when the exact quotient is above the midpoint
`12610078956637389 / 2^54` to the next double (a quotient at the midpoint rounds to the even
significand, which is `loadFactor`'s). `x/0` is `+Inf` for `x > 0`, and `0/0` is NaN, which is
above nothing. -/
def loadAbove (count product : Nat) : Bool :=
  if product = 0 then count ≠ 0 else 12610078956637389 * product < count * 2 ^ 54

/-- A `PutEntry` call from the trie insertion on: the topic's parts, depth and marshalled form,
the message id, the encoded value, the expiry time, and how `put`'s fallible calls end. The
parsing, the id and the length checks before it (db.go:490-530) return before the DB is
touched. -/
structure EntryCall where
  parts : List Part
  depth : UInt8
  topic : Bytes
  id : Bytes
  value : Bytes
  expiresAt : UInt32
  io : PutIO

namespace DB

/-- `Open` on empty files (db.go:119-172): the header and block 0 in the index file, the header in
the data file, one block, an empty filter, window and trie. -/
def fresh : DB :=
  ⟨0, 0, 1, 0, ⟨E.headerSize + E.blockSize, []⟩, ⟨E.headerSize, [], [], []⟩, [], [], TopicTrie.newTrie⟩

/-- The index file grown by a block and the split index advanced, wrapping to 0 and raising the
level when it reaches `1 << level`: what `split` does before its walk. -/
def grow (db : DB) : DB :=
  let wraps := db.splitBlockIdx + 1 = shl1 db.level.toNat
  { db with
    index := { db.index with size := db.index.size + E.blockSize },
    splitBlockIdx := if wraps then 0 else db.splitBlockIdx + 1,
    level := if wraps then db.level + 1 else db.level }

/-- The end of `split`: the writers' blocks written, the new chain's first, and one more block. -/
def splitAt (grown : DB) (s : SplitScan) : DB :=
  let written := (s.created.blocks ++ s.updated.blocks).foldl (fun db lb => db.writeBlock lb.1 lb.2)
    { grown with data := s.data }
  { written with nBlocks := written.nBlocks + 1 }

/-- `split` (db.go:620-679): chain `splitBlockIdx` is rehashed, under the grown directory, into
itself and a new chain at the old end of the index file. A walk that fails returns after the
directory has grown. -/
def split (db : DB) : DB × Option Error :=
  match (db.grow E).forEachBlock E (splitBlock E (db.grow E) db.splitBlockIdx) (db.grow E).walkFuel
      (head E db.splitBlockIdx)
      ⟨.start (head E db.splitBlockIdx), .start (.index db.index.size), db.data⟩ with
  | none => (db.grow E, some (.io 0))
  | some (_, some err) => (db.grow E, some err)
  | some (s, none) => ((db.grow E).splitAt s, none)

/-- The test that ends `PutEntry` (db.go:536): `db.nBlocks*entriesPerBlock` is a product of
`uint32`s, taken modulo `2^32`. -/
def overLoadFactor (db : DB) : Bool :=
  loadAbove db.count.toNat (db.nBlocks * UInt32.ofNat entriesPerBlock).toNat

/-- The end of `PutEntry` (db.go:531-543): the id's hash added to the trie under the topic, the
entry put, and a split when the load factor is exceeded. `split`'s error is dropped; `sync`
changes nothing the model holds. -/
def putEntry (db : DB) (c : EntryCall) : DB × Option Error :=
  let (trie, added) := db.trie.add c.parts c.depth (E.hashOf c.id).toUInt64
  match if added then { db with trie }.put E c.io c.topic c.id c.value c.expiresAt else ({ db with trie }, none) with
  | (db, some err) => (db, some err)
  | (db, none) => (if db.overLoadFactor then (db.split E).1 else db, none)

/-- `PutEntry` calls one after another, each on the state the one before left. -/
def putEntries (db : DB) : List EntryCall → DB
  | [] => db
  | c :: cs => (db.putEntry E c).1.putEntries cs

end DB

end

end UnitDB.Source.TraceDB
