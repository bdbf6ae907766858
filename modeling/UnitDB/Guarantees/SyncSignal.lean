import UnitDB.Source.SyncRun

/-!
# What `Sync` guarantees before it signals the WAL, and what its aborts restore

Guarantees of `db_sync.go`, over every content of the drained windows and every pattern
of failures of the collaborators:

* `Sync_signals_only_durable`: from a state where `syncComplete` implies that the three
  files are fsync'd, `Sync` either leaves the WAL signals alone or appends its time id, and
  then every record of the data, index and window files is fsync'd.

The files being fsync'd is not the entries being in them. The callback records an error
in `err1` and still returns `(false, nil)`, and the last flush runs regardless:
`Sync_signals_with_entry_missing` is a window of two entries whose second `mem.Get` fails;
`Sync` returns `nil` and signals the time id, and the second entry never reaches the index
file. And `upperCount` stays 0: `abort_after_flush_keeps_count` is a run whose first
intermediate flush succeeds and whose second fails; the abort truncates the files back to
the `startSync` offsets but leaves the first flush's count in place.
-/

set_option autoImplicit false

namespace UnitDB.Guarantees.SyncSignal
open UnitDB.Source UnitDB.Source.SyncHandle UnitDB.Source.SyncHandle.SyncState

theorem Sync_signals_only_durable (env : Env) (s : SyncState) (safe : s.Safe) :
    let r := (s.Sync env).1
    r.signaled = s.signaled ∨ (r.signaled = s.signaled ++ [s.logSeq] ∧ r.FilesDurable) := by
  obtain ⟨t, along, drained | flushed⟩ := Sync_cases env s
  · exact .inl (drained ▸ along.signaled)
  · have last := along.trans (sync_along env t true)
    rcases lastFlush_cases env t with same | ⟨complete, signaled⟩
    · exact .inl (flushed.trans same ▸ last.signaled)
    · rw [flushed, signaled]
      exact .inr ⟨by rw [last.signaled, last.logSeq], last.safe safe complete⟩

/-! ## Two runs -/

/-- The sizes the sample files give their records. -/
def sampleEnv (faults : Nat → Call → Option Error) (bufferSize : Nat) : Env where
  bufferSize := bufferSize
  entrySize := 1
  entriesPerIndexBlock := 10
  blockSize := 100
  indexEntrySize := 10
  entryOffset := fun seq => 100 + seq.toNat * 10
  windowRecordSize := fun es => 12 + 12 * es.length
  decode := fun bs => .ok ⟨(bs.headD 0).toUInt64, 1, 0⟩
  cacheId := 0
  missError := .msg "not found"
  faults := faults

/-- A database with one index block, ten octets of data, count 5 and log sequence 42, whose
memtable holds the packed entry of seq `m` under `(m, m)` and, for topic 7, under `(7, m)`. -/
def sampleState (windows : List Window) (topicOffsets : List (UInt64 × Nat)) : SyncState where
  windows := windows
  mem := ⟨fun h m => if h = m ∨ h = 7 then some [m.toUInt8, 9] else none⟩
  topicOffsets := topicOffsets
  filter := []
  data := ⟨10, []⟩
  index := ⟨200, []⟩
  window := ⟨0, []⟩
  rawData := []
  rawBlock := []
  rawWindow := []
  upperSeq := 0
  blockIdx := 1
  count := 5
  startBlockIdx := 0
  logSeq := 42
  upperCount := 0
  syncComplete := false
  internalCount := 0
  inBytes := 0
  winOff := 0
  blockOff := 0
  dataOff := 0
  signaled := []
  calls := 0
  detached := []
  rollbacks := []
  lastSyncSeq := 0

/-- One sealed window holding seqs 1 and 2 of topic 7, after `startSync`; the `mem.Get` of
seq 2 fails. -/
def skipEnv : Env := sampleEnv (fun _ c => if c = .memGet 7 2 then some (.io 5) else none) 1000

def skipState : SyncState := ((sampleState [[(7, [⟨1, 0⟩, ⟨2, 0⟩])]] [(7, 0)]).startSync 2).1

theorem Sync_signals_only_durable_skip_run :
    skipState.Safe ∧
      let r := (skipState.Sync skipEnv).1
      r.signaled = skipState.signaled ∨
        (r.signaled = skipState.signaled ++ [skipState.logSeq] ∧ r.FilesDurable) :=
  ⟨by decide, Sync_signals_only_durable skipEnv skipState (by decide)⟩

/-- `Sync` returns `nil` and signals time id 42 though seq 2, detached with its window, is
in no record of the index file. -/
theorem Sync_signals_with_entry_missing :
    (skipState.Sync skipEnv).2 = .ok ∧ (skipState.Sync skipEnv).1.signaled = [42] ∧
      (7, ⟨2, 0⟩) ∈ (skipState.Sync skipEnv).1.detached ∧
      ∀ rec ∈ (skipState.Sync skipEnv).1.index.recs, rec.value.seq ≠ 2 := by
  decide

/-- Topics 1 and 2 in one sealed window, `BufferSize` 0 so that each topic flushes; the
sixteenth fallible call, the second flush's `dataWriter.write`, fails. -/
def flushEnv : Env := sampleEnv (fun n _ => if n = 15 then some (.io 3) else none) 0

def flushState : SyncState := ((sampleState [[(1, [⟨1, 0⟩]), (2, [⟨2, 0⟩])]] [(1, 0), (2, 0)]).startSync 2).1

/-- The abort puts the sizes and the block index back to the `startSync` marks, but the count
it leaves is the count at `startSync` plus the first flush's entry; `Sync` then returns
`nil` and signals the time id. -/
theorem abort_after_flush_keeps_count :
    (flushState.Sync flushEnv).1.rollbacks = [⟨flushState.dataOff, flushState.blockOff, flushState.winOff,
      flushState.startBlockIdx, flushState.count + 1⟩] ∧
      (flushState.Sync flushEnv).2 = .ok ∧ (flushState.Sync flushEnv).1.signaled = [42] := by
  decide

end UnitDB.Guarantees.SyncSignal
