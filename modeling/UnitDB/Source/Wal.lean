import Mathlib.Data.List.Count

/-!
# The write-ahead log's calls and its shutdown

`wal/wal.go`: `Close` (98-110), `put` (112-118) and `SignalLogApplied` (121-133), made by
goroutines that run at once. This module is their interleaving semantics, in the style of the
log pool's: a `Call` is one goroutine making one of the three calls, with its program counter;
`step s j` performs one atomic move of goroutine `j` (`none` when it is blocked or has
returned), and `run` performs a schedule, skipping the moves that are not enabled.

Modelling choices:

* `_FileStore`, `_LogInfo` and `bpool.Buffer` are not in `src/`: the log store is the sequence of
  calls it receives (`Event.put`, `Event.del`, `Event.close`), a log is the two fields `put`
  writes and reads, and the data buffer is left out;
* `wg` is `sync.WaitGroup` as the Go runtime implements it: a counter and a number of waiters
  (one `state` word) and a semaphore, with its panics. `Add(1)` is one atomic `state.Add` and its
  checks. `Done` is `Add(-1)`: its `state.Add`, and, when that brings the counter to zero with
  `w` waiters, a `state.Load` that must still see that state, a `state.Store(0)`, and `w`
  `Semrelease`s, each a move of its own. `Wait` returns at once on a zero counter, and otherwise
  counts itself a waiter (its `Load` and `CompareAndSwap`, which retries until it succeeds, act as
  one move at the successful swap) and blocks until a release, after which its `Load` must see a
  zero state;
* nothing in `wal.go` takes `mu` for writing, so `RLock` never blocks: `readers` counts the read
  locks held;
* `setClosed` is one compare-and-swap; `put`'s counter updates and `logStore.put` are one move;
  so are `logCountApplied++` and `logStore.del`; the deferred `mu.RUnlock()` goes with the last
  move of `wg.Done()`;
* a panic ends the program: `panicked` is set and no goroutine moves again;
* two ghost events mark `SignalLogApplied`'s `wg.Add(1)` and the return of `Close`'s
  `wg.Wait()`.
-/

namespace UnitDB.Source.Wal

/-- `version`, the file format version `put` stamps on a log. -/
def version : Nat := 1

/-- The fields of `_LogInfo` that `put` writes or reads. -/
structure LogInfo where
  version : Nat
  count : Nat
  deriving DecidableEq, Repr

/-- `sync.WaitGroup`: the counter, the waiters, and the releases of the semaphore not yet taken. -/
structure WaitGroup where
  counter : Nat
  waiters : Nat
  sema : Nat
  deriving DecidableEq, Repr

/-- `wg.Add(1)`, with the runtime's check for an `Add` from zero while a `Wait` is blocked. -/
def WaitGroup.add (wg : WaitGroup) : Except String WaitGroup :=
  if wg.counter = 0 ∧ wg.waiters ≠ 0 then .error "sync: WaitGroup misuse: Add called concurrently with Wait"
  else .ok { wg with counter := wg.counter + 1 }

/-- `wg.Done()`'s `state.Add(-1 << 32)` and the checks on the state it returns: below zero it
panics; at zero with waiters it goes on to release them (`some w`), otherwise it returns. -/
def WaitGroup.done (wg : WaitGroup) : Except String (WaitGroup × Option Nat) :=
  if wg.counter = 0 then .error "sync: negative WaitGroup counter"
  else if wg.counter = 1 ∧ wg.waiters ≠ 0 then .ok ({ wg with counter := 0 }, some wg.waiters)
  else .ok ({ wg with counter := wg.counter - 1 }, none)

/-- A successful `Add(1)` counts one more and keeps the waiters; it found no waiter on a zero
counter. -/
theorem WaitGroup.add_ok {wg wg' : WaitGroup} (h : wg.add = .ok wg') :
    wg'.counter = wg.counter + 1 ∧ wg'.waiters = wg.waiters ∧ ¬(wg.counter = 0 ∧ wg.waiters ≠ 0) := by
  unfold add at h
  split at h
  · cases h
  · cases h
    exact ⟨rfl, rfl, ‹_›⟩

theorem WaitGroup.add_error {wg : WaitGroup} {msg : String} (h : wg.add = .error msg) :
    msg = "sync: WaitGroup misuse: Add called concurrently with Wait" ∧ wg.counter = 0 ∧ wg.waiters ≠ 0 := by
  unfold add at h
  split at h
  · cases h
    exact ⟨rfl, ‹_›⟩
  · cases h

theorem WaitGroup.done_error {wg : WaitGroup} {msg : String} (h : wg.done = .error msg) : wg.counter = 0 := by
  unfold done at h
  split at h
  · assumption
  · split at h <;> cases h

/-- A `Done` that returns at once counts one less and keeps the waiters, which are none if it
reached zero. -/
theorem WaitGroup.done_returns {wg wg' : WaitGroup} (h : wg.done = .ok (wg', none)) :
    wg'.counter + 1 = wg.counter ∧ wg'.waiters = wg.waiters ∧ (wg'.counter = 0 → wg.waiters = 0) := by
  unfold done at h
  split at h
  · cases h
  · split at h
    · cases h
    · cases h
      refine ⟨by simp only; omega, rfl, fun zero => ?_⟩
      simp only at zero
      omega

/-- A `Done` that goes on to release brought the counter from one to zero with waiters. -/
theorem WaitGroup.done_releases {wg wg' : WaitGroup} {w : Nat} (h : wg.done = .ok (wg', some w)) :
    wg.counter = 1 ∧ wg'.counter = 0 ∧ wg'.waiters = wg.waiters ∧ wg.waiters ≠ 0 := by
  unfold done at h
  split at h
  · cases h
  · split at h
    · cases h
      exact ⟨‹_ ∧ _›.1, rfl, rfl, ‹_ ∧ _›.2⟩
    · cases h

inductive ClosePc where
  | start
  /-- At `wal.wg.Wait()`. -/
  | waiting
  /-- Counted as a waiter, blocked on the WaitGroup's semaphore. -/
  | blocked
  /-- At `wal.logStore.close()`. -/
  | closing
  | returned (err : Option String)
  deriving DecidableEq, Repr

inductive SignalPc where
  | start
  /-- Holding `mu` for reading, at `wal.wg.Add(1)`. -/
  | locked
  /-- At `wal.logCountApplied++` and `wal.logStore.del(timeID)`. -/
  | added
  /-- At the deferred `wal.wg.Done()`: its `state.Add(-1 << 32)`. -/
  | applied
  /-- In `Done`, which brought the counter to zero with `w` waiters: at `state.Load()`, which
  must still see that state. -/
  | checking (w : Nat)
  /-- In `Done`, at `state.Store(0)`. -/
  | storing (w : Nat)
  /-- In `Done`, at its `Semrelease` loop with `w` releases left. -/
  | releasing (w : Nat)
  /-- Returned `nil`. -/
  | returned
  deriving DecidableEq, Repr

/-- A goroutine and where it is in its call. -/
inductive Call where
  | close (pc : ClosePc)
  /-- `put(log, data)`, and whether it has returned what `logStore.put` returned. -/
  | put (log : LogInfo) (returned : Bool)
  | signalLogApplied (timeID : Int) (pc : SignalPc)
  deriving DecidableEq, Repr

/-- A `SignalLogApplied` between its `wg.Add(1)` and its `wg.Done()`. -/
def Call.inFlight : Call → Bool
  | .signalLogApplied _ .added | .signalLogApplied _ .applied => true
  | _ => false

/-- A `SignalLogApplied` past its `wg.Add(1)`. -/
def Call.hasAdded : Call → Bool
  | .signalLogApplied _ .start | .signalLogApplied _ .locked => false
  | .signalLogApplied _ _ => true
  | _ => false

/-- The `timeID` a `SignalLogApplied` past its `logStore.del` deleted. -/
def Call.deleted : Call → Option Int
  | .signalLogApplied _ .start | .signalLogApplied _ .locked | .signalLogApplied _ .added => none
  | .signalLogApplied timeID _ => some timeID
  | _ => none

/-- A `Done` between the `state.Add` that brought the counter to zero with waiters and its
`state.Store(0)`. -/
def Call.inWindow : Call → Bool
  | .signalLogApplied _ (.checking _) | .signalLogApplied _ (.storing _) => true
  | _ => false

/-- The calls the log store receives, by goroutine, and two ghost events. -/
inductive Event where
  | put (j : Nat) (log : LogInfo)
  | del (j : Nat) (timeID : Int)
  | close (j : Nat)
  /-- Goroutine `j`'s `wg.Add(1)`. -/
  | added (j : Nat)
  /-- The return of goroutine `j`'s `wg.Wait()`. -/
  | waited (j : Nat)
  deriving DecidableEq, Repr

/-- The fields of `WAL` the three calls read or write, and the goroutines. -/
structure WAL where
  wg : WaitGroup
  readers : Nat
  closed : Bool
  logCountWritten : Int
  entriesWritten : Int
  logCountApplied : Int
  events : List Event
  calls : List Call
  panicked : Option String
  deriving DecidableEq, Repr

/-- A call a goroutine is about to make. -/
inductive Request where
  | close
  | put (log : LogInfo)
  | signalLogApplied (timeID : Int)
  deriving DecidableEq, Repr

def Request.call : Request → Call
  | .close => .close .start
  | .put log => .put log false
  | .signalLogApplied timeID => .signalLogApplied timeID .start

/-- A WAL after `newWal`, with goroutines about to make `reqs`. -/
def opened (reqs : List Request) : WAL :=
  ⟨⟨0, 0, 0⟩, 0, false, 0, 0, 0, [], reqs.map Request.call, none⟩

namespace WAL

/-- Goroutine `j` goes on at `c`, after the event `e`. -/
def advance (s : WAL) (j : Nat) (c : Call) (e : Option Event) : WAL :=
  { s with calls := s.calls.set j c, events := s.events ++ e.toList }

@[simp] theorem advance_wg (s : WAL) (j : Nat) (c : Call) (e : Option Event) : (s.advance j c e).wg = s.wg := rfl

@[simp] theorem advance_panicked (s : WAL) (j : Nat) (c : Call) (e : Option Event) :
    (s.advance j c e).panicked = s.panicked := rfl

def panic (s : WAL) (msg : String) : WAL := { s with panicked := some msg }

/-- A move of `Close`: `setClosed`, `wg.Wait()` (its first move, then its wake-up), and
`logStore.close()`. -/
def closeStep (s : WAL) (j : Nat) : ClosePc → Option WAL
  | .start =>
    if s.closed then some (s.advance j (.close (.returned (some "wal is closed"))) none)
    else some ({ s with closed := true }.advance j (.close .waiting) none)
  | .waiting =>
    if s.wg.counter = 0 then some (s.advance j (.close .closing) (some (.waited j)))
    else some ({ s with wg := { s.wg with waiters := s.wg.waiters + 1 } }.advance j (.close .blocked) none)
  | .blocked =>
    if s.wg.sema = 0 then none
    else if s.wg.counter ≠ 0 ∨ s.wg.waiters ≠ 0 then
      some (s.panic "sync: WaitGroup is reused before previous Wait has returned")
    else some ({ s with wg := { s.wg with sema := s.wg.sema - 1 } }.advance j (.close .closing) (some (.waited j)))
  | .closing => some (s.advance j (.close (.returned none)) (some (.close j)))
  | .returned _ => none

/-- `put`: stamp the version, count the log and its entries, and hand it to the log store. -/
def putStep (s : WAL) (j : Nat) (log : LogInfo) : Bool → Option WAL
  | false =>
    some ({ s with logCountWritten := s.logCountWritten + 1, entriesWritten := s.entriesWritten + log.count }.advance
      j (.put log true) (some (.put j { log with version := version })))
  | true => none

/-- A move of `SignalLogApplied`: `mu.RLock()`, `wg.Add(1)`, `logCountApplied++` with
`logStore.del(timeID)`, and the moves of the deferred `wg.Done()`, the last with `mu.RUnlock()`. -/
def signalStep (s : WAL) (j : Nat) (timeID : Int) : SignalPc → Option WAL
  | .start => some ({ s with readers := s.readers + 1 }.advance j (.signalLogApplied timeID .locked) none)
  | .locked =>
    match s.wg.add with
    | .error msg => some (s.panic msg)
    | .ok wg => some ({ s with wg }.advance j (.signalLogApplied timeID .added) (some (.added j)))
  | .added =>
    some ({ s with logCountApplied := s.logCountApplied + 1 }.advance j (.signalLogApplied timeID .applied)
      (some (.del j timeID)))
  | .applied =>
    match s.wg.done with
    | .error msg => some (s.panic msg)
    | .ok (wg, none) => some ({ s with wg, readers := s.readers - 1 }.advance j (.signalLogApplied timeID .returned) none)
    | .ok (wg, some w) => some ({ s with wg }.advance j (.signalLogApplied timeID (.checking w)) none)
  | .checking w =>
    if s.wg.counter ≠ 0 ∨ s.wg.waiters ≠ w then some (s.panic "sync: WaitGroup misuse: Add called concurrently with Wait")
    else some (s.advance j (.signalLogApplied timeID (.storing w)) none)
  | .storing w =>
    some ({ s with wg := { s.wg with counter := 0, waiters := 0 } }.advance j (.signalLogApplied timeID (.releasing w)) none)
  | .releasing w =>
    if w ≤ 1 then
      some ({ s with wg := { s.wg with sema := s.wg.sema + 1 }, readers := s.readers - 1 }.advance j
        (.signalLogApplied timeID .returned) none)
    else some ({ s with wg := { s.wg with sema := s.wg.sema + 1 } }.advance j (.signalLogApplied timeID (.releasing (w - 1))) none)
  | .returned => none

/-- One atomic move of goroutine `j`. -/
def step (s : WAL) (j : Nat) : Option WAL :=
  if s.panicked.isSome then none
  else match s.calls[j]? with
    | some (.close pc) => s.closeStep j pc
    | some (.put log returned) => s.putStep j log returned
    | some (.signalLogApplied timeID pc) => s.signalStep j timeID pc
    | none => none

/-- A schedule, performed move by move; a move that is not enabled is skipped. -/
def run (s : WAL) : List Nat → WAL
  | [] => s
  | j :: js => ((s.step j).getD s).run js

end WAL

end UnitDB.Source.Wal
