import UnitDB.Source.Basic

/-!
# Sync engine: draining time windows into the data, index and window files

`db_sync.go`: `syncHandle.startSync`, `Sync`, `sync` (one flush), `abort`, and the
`internal.reset` every abort runs, as functions on one state record. The record holds the
parts of the database these functions read or write: the sealed time windows, the
memtable, the trie's window offsets, the presence filter, the three files, the writers'
raw buffers, the block index and counters, and the WAL's applied signals.

The collaborators that are not part of the sources are modelled so:

* the memtable is the spec's map keyed by (first argument, memseq) (`Memtable`);
* `foreachTimeWindow(drain = true, fn)` is modelled from the spec (§4.5): sealed windows in
  order, each detached before `fn` runs, stopping with `fn`'s error;
* a writer's `append` buffers a record, `write` puts the buffer into its file, `rollback`
  drops it; a file is its size and the records written into it, each with its offset and
  whether an fsync has covered it;
* every other fallible call (`mem.Get`, the appends, the writes, `extendBlocks`, the
  header write and the three fsyncs of `DB.sync`, the rollbacks, `lease.write`,
  `startRecovery`) fails exactly when the oracle `Env.faults` says so, given how many
  fallible calls came before. Any pattern of failures is one oracle.

Two ghost fields record what the claims talk about: the window entries detached so far,
and the file sizes, block index and count at the end of every rolling-back `abort`.
`startRecovery` is a call that may fail (then `Sync` panics) and otherwise changes nothing
here; the meters are left out.
-/

namespace UnitDB.Source.SyncHandle
open UnitDB.Source

/-! ## The memtable -/

/-- Modelled from the spec: the memtable (`memdb`, whose code is not in the sources) as the
map `(first argument, memseq) → packed entry`; `free(x, bound)` deletes every key `(x, m)`
with `m ≤ bound`. -/
structure Memtable where
  get : UInt64 → UInt64 → Option Bytes

def Memtable.set (m : Memtable) (x memseq : UInt64) (data : Bytes) : Memtable :=
  ⟨fun y my => if y = x ∧ my = memseq then some data else m.get y my⟩

def Memtable.free (m : Memtable) (x bound : UInt64) : Memtable :=
  ⟨fun y my => if y = x ∧ my ≤ bound then none else m.get y my⟩

@[simp] theorem Memtable.get_set (m : Memtable) (x y mx my : UInt64) (data : Bytes) :
    (m.set x mx data).get y my = if y = x ∧ my = mx then some data else m.get y my := rfl

@[simp] theorem Memtable.get_free (m : Memtable) (x y bound my : UInt64) :
    (m.free x bound).get y my = if y = x ∧ my ≤ bound then none else m.get y my := rfl

/-! ## Records, files and the state -/

/-- `winEntry{seq, expiresAt}`. -/
structure WinEntry where
  seq : UInt64
  expiresAt : UInt32
  deriving DecidableEq, Repr

/-- One sealed time window as `foreachTimeWindow` yields it: topic hash ↦ entries, in the
order Go's map iteration happens to visit them. -/
abbrev Window := List (UInt64 × List WinEntry)

/-- The fields of `entry` the sync engine reads or sets. -/
structure IndexEntry where
  seq : UInt64
  valueSize : UInt32
  msgOffset : Nat
  deriving DecidableEq, Repr, Inhabited

/-- A window-file record: `{topic_hash, next_off, entries}` (spec §6). -/
structure WindowRecord where
  topicHash : UInt64
  next : Nat
  entries : List WinEntry
  deriving DecidableEq, Repr

/-- A record in a file, at its offset; `durable` once an fsync covered it. -/
structure Record (α : Type) where
  offset : Nat
  value : α
  durable : Bool
  deriving DecidableEq, Repr

structure File (α : Type) where
  size : Nat
  recs : List (Record α)
  deriving DecidableEq, Repr

/-- Write `v`, `len` octets long, at offset `off`. -/
def File.writeAt {α : Type} (f : File α) (off len : Nat) (v : α) : File α :=
  ⟨max f.size (off + len), f.recs ++ [⟨off, v, false⟩]⟩

def File.fsync {α : Type} (f : File α) : File α :=
  ⟨f.size, f.recs.map fun r => { r with durable := true }⟩

def File.truncate {α : Type} (f : File α) (off : Nat) : File α :=
  ⟨off, f.recs.filter (·.offset < off)⟩

/-- The fallible collaborator calls, as the oracle sees them. -/
inductive Call where
  | memGet (h memseq : UInt64)
  | dataAppend | blockAppend (seq : UInt64) | windowAppend (h : UInt64)
  | dataWrite | extendBlocks | windowWrite | blockWrite
  | writeHeader | windowSync | indexSync | dataSync
  | rollback | leaseWrite | recovery
  deriving DecidableEq, Repr

/-- Constants and collaborators: `opts.BufferSize`, `entrySize`, `entriesPerIndexBlock`,
`blockSize`, the index layout, `entry.UnmarshalBinary`, the per-open `cacheID`, the error
of a memtable miss, and the failure oracle. -/
structure Env where
  bufferSize : Nat
  entrySize : Nat
  entriesPerIndexBlock : Nat
  blockSize : Nat
  indexEntrySize : Nat
  /-- Where `blockWriter.write` puts the entry of a seq in the index file. -/
  entryOffset : UInt64 → Nat
  windowRecordSize : List WinEntry → Nat
  decode : Bytes → Except Error IndexEntry
  cacheId : UInt64
  missError : Error
  /-- Whether the fallible call made after `n` others fails, and with which error. -/
  faults : Nat → Call → Option Error

/-- File sizes, block index and count, as an `abort` that rolls back leaves them. -/
structure Snapshot where
  dataSize : Nat
  indexSize : Nat
  windowSize : Nat
  blockIdx : Int
  count : Int
  deriving DecidableEq, Repr

structure SyncState where
  /-- Sealed windows still attached to the time-window bucket. -/
  windows : List Window
  mem : Memtable
  /-- The trie's window offset per topic hash (`getOffset`, `setOffset`). -/
  topicOffsets : List (UInt64 × Nat)
  filter : List UInt64
  data : File Bytes
  index : File IndexEntry
  window : File WindowRecord
  /-- The writers' raw buffers. -/
  rawData : List Bytes
  rawBlock : List IndexEntry
  rawWindow : List WindowRecord
  /-- `blockWriter.UpperSeq()`. -/
  upperSeq : UInt64
  /-- `db.blockIdx` and the database's record count. -/
  blockIdx : Int
  count : Int
  startBlockIdx : Int
  logSeq : UInt64
  upperCount : Int
  syncComplete : Bool
  internalCount : Nat
  inBytes : Nat
  winOff : Nat
  blockOff : Nat
  dataOff : Nat
  /-- The time ids passed to `wal.SignalLogApplied`. -/
  signaled : List UInt64
  calls : Nat
  detached : List (UInt64 × WinEntry)
  rollbacks : List Snapshot
  lastSyncSeq : UInt64

/-- Go's `int32(n)`. -/
def toInt32 (n : Nat) : Int :=
  if n % 2 ^ 32 < 2 ^ 31 then (n % 2 ^ 32 : Nat) else (n % 2 ^ 32 : Nat) - 2 ^ 32

/-- `trie.setOffset(topic{hash: h, offset: off})`: `none` when the trie lacks the topic. -/
def setOffset (offsets : List (UInt64 × Nat)) (h : UInt64) (off : Nat) : Option (List (UInt64 × Nat)) :=
  if (offsets.lookup h).isSome then some (offsets.map fun p => if p.1 = h then (h, off) else p) else none

/-- How one pass of a loop body ends: on to the next element (the end of the body, or
`continue`), `break`, the callback's `return true, err`, or a slice panic. -/
inductive Flow where
  | next
  | brk
  | ret (e : Error)
  | panic
  deriving DecidableEq, Repr

namespace SyncState
variable (env : Env)

/-- One fallible collaborator call: the oracle decides, and the call count moves on. -/
def call (s : SyncState) (c : Call) : SyncState × Option Error :=
  ({ s with calls := s.calls + 1 }, env.faults s.calls c)

/-- `rawData.Size()`. -/
def rawDataSize (s : SyncState) : Nat := (s.rawData.map List.length).sum

/-- `mem.Get(h, mseq)`. -/
def memGet (s : SyncState) (h mseq : UInt64) : SyncState × Except Error Bytes :=
  match s.call env (.memGet h mseq) with
  | (s, some e) => (s, .error e)
  | (s, none) => (s, match s.mem.get h mseq with
    | some d => .ok d
    | none => .error env.missError)

/-- `dataWriter.append(data)`: the offset the data will have once written. -/
def dataAppend (s : SyncState) (data : Bytes) : SyncState × Except Error Nat :=
  match s.call env .dataAppend with
  | (s, some e) => (s, .error e)
  | (s, none) => ({ s with rawData := s.rawData ++ [data] }, .ok (s.data.size + s.rawDataSize))

/-- `blockWriter.append(e, startBlockIdx)`: `exists` when the seq is already in the index
file or in the writer's buffer. -/
def blockAppend (s : SyncState) (e : IndexEntry) : SyncState × Bool × Option Error :=
  if e.seq ∈ s.index.recs.map (·.value.seq) ∨ e.seq ∈ s.rawBlock.map (·.seq) then (s, true, none)
  else match s.call env (.blockAppend e.seq) with
    | (s, some err) => (s, false, some err)
    | (s, none) => ({ s with rawBlock := s.rawBlock ++ [e], upperSeq := max s.upperSeq e.seq }, false, none)

/-- `windowWriter.append(h, topicOff, entries)`: the offset the record will have. -/
def windowAppend (s : SyncState) (h : UInt64) (topicOff : Nat) (entries : List WinEntry) :
    SyncState × Except Error Nat :=
  match s.call env (.windowAppend h) with
  | (s, some e) => (s, .error e)
  | (s, none) => ({ s with rawWindow := s.rawWindow ++ [⟨h, topicOff, entries⟩] },
      .ok (s.window.size + (s.rawWindow.map fun r => env.windowRecordSize r.entries).sum))

/-- A fallible call that, when it succeeds, applies `f`: every writer's `write`, `extendBlocks`
and each step of `DB.sync`. -/
def attempt (s : SyncState) (c : Call) (f : SyncState → SyncState) : SyncState × Option Error :=
  match s.call env c with
  | (s, some e) => (s, some e)
  | (s, none) => (f s, none)

/-- Go's `if err := step; err != nil { return err }`, then `k`. -/
def checkErr (r : SyncState × Option Error) (k : SyncState → SyncState × Option Error) :
    SyncState × Option Error :=
  match r with
  | (s, some e) => (s, some e)
  | (s, none) => k s

/-- `dataWriter.write()`: the buffered data goes behind the file's end. -/
def dataWrite (s : SyncState) : SyncState × Option Error :=
  s.attempt env .dataWrite fun s =>
    { s with data := s.rawData.foldl (fun f d => f.writeAt f.size d.length d) s.data, rawData := [] }

/-- `db.extendBlocks(n)`: `n` more index blocks. -/
def extendBlocks (s : SyncState) (n : Int) : SyncState × Option Error :=
  s.attempt env .extendBlocks fun s =>
    { s with blockIdx := s.blockIdx + n,
             index := { s.index with size := s.index.size + n.toNat * env.blockSize } }

/-- `windowWriter.write()`: the buffered records go behind the window file's end. -/
def windowWrite (s : SyncState) : SyncState × Option Error :=
  s.attempt env .windowWrite fun s =>
    { s with window := s.rawWindow.foldl (fun f r => f.writeAt f.size (env.windowRecordSize r.entries) r) s.window,
             rawWindow := [] }

/-- `blockWriter.write()`: each buffered entry goes to its seq's place in the index file. -/
def blockWrite (s : SyncState) : SyncState × Option Error :=
  s.attempt env .blockWrite fun s =>
    { s with index := s.rawBlock.foldl (fun f e => f.writeAt (env.entryOffset e.seq) env.indexEntrySize e) s.index,
             rawBlock := [] }

/-- `DB.sync()` (db_sync.go:168-183): the header, then the window, index and data files'
fsyncs, stopping at the first error. -/
def fsyncAll (s : SyncState) : SyncState × Option Error :=
  checkErr (s.attempt env .writeHeader id) fun s =>
  checkErr (s.attempt env .windowSync fun s => { s with window := s.window.fsync }) fun s =>
  checkErr (s.attempt env .indexSync fun s => { s with index := s.index.fsync }) fun s =>
  s.attempt env .dataSync fun s => { s with data := s.data.fsync }

/-- The body of `sync` once it flushes (db_sync.go:193-225), up to the deferred `abort`. -/
def flushSteps (s : SyncState) : SyncState × Option Error :=
  checkErr (s.dataWrite env) fun s =>
  let nBlocks := toInt32 ((s.upperSeq.toNat - 1) / env.entriesPerIndexBlock)
  checkErr (if s.blockIdx < nBlocks then s.extendBlocks env (nBlocks - s.blockIdx) else (s, none)) fun s =>
  checkErr (s.windowWrite env) fun s =>
  checkErr (s.blockWrite env) fun s =>
  checkErr (s.fsyncAll env) fun s =>
  ({ s with count := s.count + s.internalCount, syncComplete := true }, none)

/-- `internal.reset` (db_sync.go:93-100). -/
def reset (s : SyncState) : SyncState :=
  { s with internalCount := 0, inBytes := 0, rawWindow := [], rawBlock := [], rawData := [] }

/-- The rolling-back part of `abort` (db_sync.go:109-131): truncate the three files to the
`startSync` offsets, put the block index back, take `upperCount` off the count, then the
writers' rollbacks and the free-list write, any of which may fail and end `abort` there;
every caller drops `abort`'s error. -/
def rollBack (s : SyncState) : SyncState × Option Error :=
  let s := { s with data := s.data.truncate s.dataOff, index := s.index.truncate s.blockOff,
                    window := s.window.truncate s.winOff, blockIdx := s.startBlockIdx,
                    count := s.count - s.upperCount }
  let snap : Snapshot := ⟨s.data.size, s.index.size, s.window.size, s.blockIdx, s.count⟩
  let s := { s with rollbacks := s.rollbacks ++ [snap] }
  checkErr (s.attempt env .rollback fun s => { s with rawData := [] }) fun s =>
  checkErr (s.attempt env .rollback fun s => { s with rawBlock := [] }) fun s =>
  checkErr (s.attempt env .rollback fun s => { s with rawWindow := [] }) fun s =>
  s.attempt env .leaseWrite id

/-- `abort` (db_sync.go:102-132): nothing to roll back after a complete flush; the deferred
`internal.reset` runs either way. -/
def abort (s : SyncState) : SyncState :=
  (if s.syncComplete then s else (s.rollBack env).1).reset

/-- `syncHandle.sync(recovery, last)` (db_sync.go:185-228); `recovery` only feeds a meter. -/
def sync (s : SyncState) (last : Bool) : SyncState × Option Error :=
  if last || env.bufferSize < s.rawDataSize then
    if s.upperSeq = 0 then (s, none)
    else
      let flushed := { s with syncComplete := false }.flushSteps env
      (flushed.1.abort env, flushed.2)
  else (s, none)

/-- Go's `for _, x := range xs { body }`, threading the state and `err1`. The loop ends
normally when the elements run out or the body breaks; the callback's `return` and a panic
end the enclosing function. -/
def loop {α : Type} (body : α → SyncState → Option Error → SyncState × Option Error × Flow) :
    List α → SyncState → Option Error → SyncState × Option Error × Flow
  | [], s, err1 => (s, err1, .next)
  | x :: xs, s, err1 =>
    match body x s err1 with
    | (s, err1, .next) => loop body xs s err1
    | (s, err1, .brk) => (s, err1, .next)
    | r => r

/-- `db.filter.Append(seq)`, `internal.count++`, `internal.inBytes += valueSize`: an entry the
block writer took. -/
def record (s : SyncState) (we : WinEntry) (memEntry : IndexEntry) : SyncState :=
  { s with filter := s.filter ++ [we.seq], internalCount := s.internalCount + 1,
           inBytes := s.inBytes + memEntry.valueSize.toNat }

/-- One pass over a window entry of topic `h` (db_sync.go:238-264). A `mem.Get` or
`dataWriter.append` error sets `err1` and breaks; `memdata[:entrySize]` panics on short
data; a decoding error sets `err1` and carries on; an entry `blockWriter` already holds, or
an append error, sets `err1` to that call's error, possibly `nil`, and continues. -/
def syncEntry (h : UInt64) (we : WinEntry) (s : SyncState) (err1 : Option Error) :
    SyncState × Option Error × Flow :=
  if we.seq = 0 then (s, err1, .next)
  else
    let got := s.memGet env h (env.cacheId ^^^ we.seq)
    match got.2 with
    | .error e => (got.1, some e, .brk)
    | .ok memdata =>
      if memdata.length < env.entrySize then (got.1, err1, .panic)
      else
        let decoded := env.decode (memdata.take env.entrySize)
        let memEntry : IndexEntry := match decoded with
          | .ok e => e
          | .error _ => default
        let err1 := match decoded with
          | .ok _ => err1
          | .error e => some e
        let appended := got.1.dataAppend env (memdata.drop env.entrySize)
        match appended.2 with
        | .error e => (appended.1, some e, .brk)
        | .ok off =>
          let added := appended.1.blockAppend env { memEntry with msgOffset := off }
          if added.2.1 || added.2.2.isSome then (added.1, added.2.2, .next)
          else (added.1.record we memEntry, err1, .next)

/-- `trie.setOffset` succeeded: store the topic's new window offset, then
`mem.Free(h, cacheID^upperSeq)`. -/
def freeTopic (s : SyncState) (h : UInt64) (offsets : List (UInt64 × Nat)) : SyncState :=
  { s with topicOffsets := offsets, mem := s.mem.free h (env.cacheId ^^^ s.upperSeq) }

/-- One pass over a topic of a window (db_sync.go:237-286): its entries, then its window
record, the trie offset, the memtable free, and an intermediate flush unless `err1` is set. -/
def syncTopic (topic : UInt64 × List WinEntry) (s : SyncState) (err1 : Option Error) :
    SyncState × Option Error × Flow :=
  let entries := loop (syncEntry env topic.1) topic.2 s err1
  let s := entries.1
  let err1 := entries.2.1
  if entries.2.2 = .panic then (s, err1, .panic)
  else
    match s.topicOffsets.lookup topic.1 with
    | none => (s, err1, .ret (.msg "db.Sync: timeWindow sync error: unable to get topic offset from trie"))
    | some topicOff =>
      let appended := s.windowAppend env topic.1 topicOff topic.2
      match appended.2 with
      | .error e => (appended.1, err1, .ret e)
      | .ok wOff =>
        match setOffset appended.1.topicOffsets topic.1 wOff with
        | none => (appended.1, err1, .ret (.msg "db:Sync: timeWindow sync error: unable to set topic offset in trie"))
        | some offsets =>
          let s := appended.1.freeTopic env topic.1 offsets
          if err1.isSome then (s, err1, .brk)
          else
            let flushed := s.sync env false
            match flushed.2 with
            | some e => (flushed.1, some e, .brk)
            | none => (flushed.1, err1, .next)

/-- The callback `Sync` passes to `foreachTimeWindow`: the loop over a window's topics. -/
def syncWindow (w : Window) (s : SyncState) (err1 : Option Error) : SyncState × Option Error × Flow :=
  loop (syncTopic env) w s err1

/-- Detach the first sealed window from the time-window bucket. -/
def detach (s : SyncState) (w : Window) : SyncState :=
  { s with windows := s.windows.tail, detached := s.detached ++ w.flatMap fun p => p.2.map (p.1, ·) }

/-- Modelled from the spec (§4.5): `foreachTimeWindow(drain = true, fn)`, whose code is not in
the sources, runs `fn` on each sealed window in order, detaching the window first, and
stops with `fn`'s error as soon as `fn` asks to stop. -/
def foreachTimeWindow (fn : Window → SyncState → Option Error → SyncState × Option Error × Flow)
    (ws : List Window) (s : SyncState) (err1 : Option Error) : SyncState × Option Error × Flow :=
  loop (fun w s err1 => fn w (s.detach w) err1) ws s err1

/-- The end of `Sync` (db_sync.go:299-310): the last flush, then the WAL signal when the
latest flush completed. -/
def lastFlush (s : SyncState) : SyncState × Outcome :=
  let flushed := s.sync env true
  match flushed.2 with
  | some e => (flushed.1, .error e)
  | none =>
    let s := flushed.1
    if s.syncComplete then ({ s with signaled := s.signaled ++ [s.logSeq] }, .ok) else (s, .ok)

/-- `syncHandle.Sync` (db_sync.go:233-311). An error from `foreachTimeWindow` aborts and
starts the recovery, which panics if it fails; the last flush runs either way. -/
def Sync (s : SyncState) : SyncState × Outcome :=
  let drained := foreachTimeWindow (syncWindow env) s.windows s none
  match drained.2.2 with
  | .panic => (drained.1, .panic)
  | .ret _ =>
    let recovered := ({ drained.1 with syncComplete := false }.abort env).call env .recovery
    match recovered.2 with
    | some _ => (recovered.1, .panic)
    | none => recovered.1.lastFlush env
  | _ => drained.1.lastFlush env

/-- `startSync` (db_sync.go:43-65) given `db.seq()` and fresh pool buffers and writers: `false`
when nothing was written since the last sync. `db.internal.logSeq = db.logSeq()` assigns the
field to itself (`syncHandle.logSeq` returns `db.internal.logSeq`, db_sync.go:71-73), so the time
id `Sync` signals is the one already held. -/
def startSync (s : SyncState) (dbSeq : UInt64) : SyncState × Bool :=
  if s.lastSyncSeq = dbSeq then (s, false)
  else ({ s with startBlockIdx := s.blockIdx, rawWindow := [], rawBlock := [],
                 rawData := [], upperSeq := 0, winOff := s.window.size, blockOff := s.index.size,
                 dataOff := s.data.size }, true)

end SyncState

end UnitDB.Source.SyncHandle
