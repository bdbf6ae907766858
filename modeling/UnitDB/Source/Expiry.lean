import UnitDB.Source.Basic

/-!
# The expirer and the index block reader

`DB.expireEntries` (db_sync.go:314-352) and `_BlockReader.readEntry` (block_reader.go:56-79).
The expirer takes the window entries `timeWindow.expireOldEntries` returned and, for each one
whose seq passes the presence filter, reads the index block `startBlockIndex(seq)`, looks for
the seq among the block's entries, frees the entry's message extent on the lease and takes one
off the count. `readEntry` reads the block `blockIndex(seq)` and returns the entry of the seq,
`errMsgIDDeleted` for an entry whose `msgOffset` is -1, and `errEntryInvalid` when the block
lacks the seq.

Modelling choices:

* the index file is its blocks, each the list of its `entriesPerIndexBlock` entries; a block
  past the end of the file reads as `io.EOF` (`State.read`), and the read of a block inside it
  fails with the error `Env.readFails` gives it, if any;
* `startBlockIndex`, `blockIndex`, the filter's `Test`, `mSize()` and the list that
  `timeWindow.expireOldEntries(limit)` returns are not in `src/`: they are arguments (`Env`,
  and the list of expired entries);
* the lease is the list of extents `lease.free(seq, off, size)` was given, in order; `decount(1)`
  takes one off the count;
* `syncLockC` makes the expirer run alone: the model is sequential.
-/

namespace UnitDB.Source.Expiry
open UnitDB.Source

/-- The fields of `_IndexEntry` the two functions read. -/
structure IndexEntry where
  seq : UInt64
  msgOffset : Int
  topicSize : UInt16
  valueSize : UInt32
  deriving DecidableEq, Repr

/-- `winEntry`: the seq and expiry time of a stored message. -/
structure WinEntry where
  seq : UInt64
  expiresAt : UInt32
  deriving DecidableEq, Repr

/-- What the two functions read from outside the sources. -/
structure Env where
  startBlockIndex : UInt64 → Nat
  blockIndex : UInt64 → Nat
  /-- `db.filter.Test`. -/
  test : UInt64 → Bool
  /-- `e.mSize()`: the octets of the message. -/
  mSize : IndexEntry → Nat
  /-- The error other than `io.EOF` that `b.read()` returns for block `i`, if any. -/
  readFails : Nat → Option Error

/-- How reading a block fails: at the end of the file, or with another error. -/
inductive ReadError where
  | eof
  | failed (err : Error)
  deriving DecidableEq, Repr

structure State where
  /-- The index file's blocks. -/
  blocks : List (List IndexEntry)
  /-- The extents given to `lease.free`: seq, offset, size. -/
  lease : List (UInt64 × Int × Nat)
  count : Int
  deriving DecidableEq, Repr

/-- The loop `for i := 0; i < entriesPerIndexBlock; i++` that looks for the seq: the first entry
of the block that has it. -/
def findSeq (b : List IndexEntry) (seq : UInt64) : Option IndexEntry := b.find? (·.seq == seq)

section
variable (E : Env)

/-- `blockHandle.read` at `blockOffset(idx)`. -/
def State.read (s : State) (idx : Nat) : Except ReadError (List IndexEntry) :=
  match s.blocks[idx]? with
  | none => .error .eof
  | some b =>
    match E.readFails idx with
    | some err => .error (.failed err)
    | none => .ok b

/-- The loop of `expireEntries` over the expired entries: an entry the filter misses is skipped
(`continue`); a block read that fails at `io.EOF`, and a block without the seq, end the loop with
`nil`; a block read that fails otherwise ends it with the error; else the entry's extent is freed
and the count decreased. -/
def expireLoop : List WinEntry → State → State × Option Error
  | [], s => (s, none)
  | we :: rest, s =>
    if !E.test we.seq then expireLoop rest s
    else match s.read E (E.startBlockIndex we.seq) with
      | .error .eof => (s, none)
      | .error (.failed err) => (s, some err)
      | .ok b =>
        match findSeq b we.seq with
        | none => (s, none)
        | some e =>
          expireLoop rest { s with lease := s.lease ++ [(e.seq, e.msgOffset, E.mSize e)], count := s.count - 1 }

/-- `expireEntries`, given what `timeWindow.expireOldEntries` returned. -/
def State.expireEntries (s : State) (expired : List WinEntry) : State × Option Error :=
  expireLoop E expired s

/-- `readEntry`: the entry of `seq` in block `blockIndex(seq)`; a failed read returns its error
(`io.EOF` is `io 0`). -/
def State.readEntry (s : State) (seq : UInt64) : Except Error IndexEntry :=
  match s.read E (E.blockIndex seq) with
  | .error .eof => .error (.io 0)
  | .error (.failed err) => .error err
  | .ok b =>
    match findSeq b seq with
    | none => .error .entryInvalid
    | some e => if e.msgOffset = -1 then .error .msgIdDeleted else .ok e

/-! ## What the expirer does not do -/

/-- The expirer never writes the index: it changes only the lease and the count. -/
theorem expireLoop_blocks : ∀ (expired : List WinEntry) (s : State), (expireLoop E expired s).1.blocks = s.blocks
  | [], _ => rfl
  | we :: rest, s => by
    unfold expireLoop
    split
    · exact expireLoop_blocks rest s
    · split
      · rfl
      · rfl
      · split
        · rfl
        · exact expireLoop_blocks rest _

/-- `readEntry` reads only the index file. -/
theorem readEntry_congr {s s' : State} (h : s'.blocks = s.blocks) (seq : UInt64) :
    s'.readEntry E seq = s.readEntry E seq := by
  simp only [State.readEntry, State.read, h]

end

end UnitDB.Source.Expiry
