import Mathlib.Data.List.Count
import Mathlib.Data.List.Perm.Basic

/-!
# The log pool's goroutines

`memdb/tinylog.go`: `newLogPool` starts `writeLoop`, `commitLoop` and `logCount`
dispatchers; `close` closes `stop` and waits for the committer and the dispatchers. The
goroutines talk through `writeQueue` (buffer 1), `logQueue` (buffer `poolCapacity`) and
`stop`. This module is their interleaving semantics: one `Action` is one atomic move of
one goroutine, `step` performs it when it is enabled (`none` when the goroutine is
blocked), and `run` performs a schedule.

Modelling choices:

* a tiny log is its number; `newTinyLog` makes the next number;
* a blocked send is a goroutine waiting in a `sending` or `holding` state; the tick's
  capacity check, the timers and `tinyCommit`'s latency are the scheduler's choices, so
  every tick that writes is a `writerTick` and a slow commit is a committer that is not
  scheduled;
* the write of the stop branch and the `close(p.writeQueue)` after it are one move;
* a panic (`close of closed channel`, `send on closed channel`) ends the program:
  `panicked` is set and no goroutine moves again;
* three ghost lists record the logs sent on `writeQueue`, passed to `tinyCommit`, and
  discarded by a dispatcher that found `logQueue` full.
-/

namespace UnitDB.Source.LogPool

/-- The two fields of `_LogOptions` the goroutines read. -/
structure LogOptions where
  poolCapacity : Int
  logCount : Int
  deriving DecidableEq, Repr

/-- `withDefaultOptions` (tinylog.go:98-120) on those two fields. -/
def LogOptions.withDefaultOptions (o : LogOptions) : LogOptions :=
  { poolCapacity := if o.poolCapacity < 1 then 1 else o.poolCapacity,
    logCount := if o.logCount < 1 then 1 else o.logCount }

/-- A buffered Go channel of tiny logs. -/
structure Chan where
  buf : List Nat
  cap : Nat
  closed : Bool
  deriving DecidableEq, Repr

def Chan.push (c : Chan) (x : Nat) : Chan := { c with buf := c.buf ++ [x] }

inductive WriterPc where
  | loop
  /-- Blocked in `p.writeQueue <- p.tinyLog`, from the tick or from the stop branch. -/
  | sending (log : Nat) (stopping : Bool)
  | done
  deriving DecidableEq, Repr

inductive DispatchPc where
  /-- Waiting on `<-p.writeQueue`. -/
  | recv
  /-- Holding a received log, at the `select` that sends it on `logQueue`. -/
  | holding (log : Nat)
  /-- In `time.Sleep(timeout)` after discarding a log. -/
  | sleeping
  | done
  deriving DecidableEq, Repr

inductive CommitPc where
  | running
  /-- In the loop that empties `logQueue` after `stop`. -/
  | draining
  | done
  deriving DecidableEq, Repr

structure Pool where
  writeQueue : Chan
  logQueue : Chan
  /-- Whether `close` has closed `p.stop`. -/
  stopClosed : Bool
  /-- `p.tinyLog`. -/
  tinyLog : Nat
  writer : WriterPc
  dispatchers : List DispatchPc
  committer : CommitPc
  panicked : Option String
  sent : List Nat
  committed : List Nat
  dropped : List Nat
  deriving DecidableEq, Repr

/-- `newLogPool` (tinylog.go:130-157), with the first `newTinyLog` done. -/
def newLogPool (opts : LogOptions) : Pool :=
  let opts := opts.withDefaultOptions
  { writeQueue := ⟨[], 1, false⟩, logQueue := ⟨[], opts.poolCapacity.toNat, false⟩, stopClosed := false,
    tinyLog := 0, writer := .loop, dispatchers := List.replicate opts.logCount.toNat .recv,
    committer := .running, panicked := none, sent := [], committed := [], dropped := [] }

/-- One atomic move of one goroutine. -/
inductive Action where
  /-- `writeLoop`'s `select` takes the ticker (and the capacity check lets it write). -/
  | writerTick
  /-- `writeLoop`'s `select` takes `<-p.stop`. -/
  | writerStop
  /-- The writer's send on `writeQueue` completes. -/
  | writerSend
  | dispatchRecv (i : Nat)
  | dispatchPut (i : Nat)
  | dispatchWake (i : Nat)
  /-- `commitLoop`'s `select` takes `<-p.logQueue`. -/
  | commitRecv
  /-- `commitLoop`'s `select` takes `<-p.stop`. -/
  | commitStop
  /-- One pass of the loop that empties `logQueue`. -/
  | commitDrain
  /-- `close`: `stopOnce.Do(close(p.stop))`. -/
  | close
  deriving DecidableEq, Repr

namespace Pool

def panic (s : Pool) (msg : String) : Pool := { s with panicked := some msg }

def setDispatcher (s : Pool) (i : Nat) (pc : DispatchPc) : Pool :=
  { s with dispatchers := s.dispatchers.set i pc }

/-- `select` on the ticker or `stop` in `writeLoop` (tinylog.go:211-240): both branches go on
to `p.write()`, the send of `p.tinyLog`. -/
def writerSelect (s : Pool) (stopping : Bool) : Option Pool :=
  match s.writer with
  | .loop => if stopping && !s.stopClosed then none else some { s with writer := .sending s.tinyLog stopping }
  | _ => none

/-- The send of `write()` completing; then `newTinyLog()` after a tick, or
`close(p.writeQueue)` and `return` after the stop. -/
def writerSend (s : Pool) : Option Pool :=
  match s.writer with
  | .sending x stopping =>
    if s.writeQueue.closed then some (s.panic "send on closed channel")
    else if s.writeQueue.buf.length < s.writeQueue.cap then
      let s := { s with writeQueue := s.writeQueue.push x, sent := s.sent ++ [x] }
      if stopping then some { s with writeQueue := { s.writeQueue with closed := true }, writer := .done }
      else some { s with tinyLog := s.tinyLog + 1, writer := .loop }
    else none
  | _ => none

/-- `tinyLog, ok := <-p.writeQueue` in `dispatch` (tinylog.go:249-255): a log, or, once the
queue is closed and empty, `close(p.logQueue)` and `stopWg.Done()`. -/
def dispatchRecv (s : Pool) (i : Nat) : Option Pool :=
  match s.dispatchers[i]? with
  | some .recv =>
    match s.writeQueue.buf with
    | x :: rest => some ({ s with writeQueue := { s.writeQueue with buf := rest } }.setDispatcher i (.holding x))
    | [] =>
      if !s.writeQueue.closed then none
      else if s.logQueue.closed then some (s.panic "close of closed channel")
      else some ({ s with logQueue := { s.logQueue with closed := true } }.setDispatcher i .done)
  | _ => none

/-- The inner `select` of `dispatch` (tinylog.go:258-263): send on `logQueue`, or, when it is
full, discard the log ("let GC handle the buffer") and sleep. -/
def dispatchPut (s : Pool) (i : Nat) : Option Pool :=
  match s.dispatchers[i]? with
  | some (.holding x) =>
    if s.logQueue.closed then some (s.panic "send on closed channel")
    else if s.logQueue.buf.length < s.logQueue.cap then
      some ({ s with logQueue := s.logQueue.push x }.setDispatcher i .recv)
    else some ({ s with dropped := s.dropped ++ [x] }.setDispatcher i .sleeping)
  | _ => none

/-- `goto LOOP` after the sleep. -/
def dispatchWake (s : Pool) (i : Nat) : Option Pool :=
  match s.dispatchers[i]? with
  | some .sleeping => some (s.setDispatcher i .recv)
  | _ => none

/-- `tinyLog := <-p.logQueue` in `commitLoop` (tinylog.go:293-298): commit it; a closed, empty
queue gives `nil`, which is skipped. -/
def commitRecv (s : Pool) : Option Pool :=
  match s.committer, s.logQueue.buf with
  | .running, x :: rest => some { s with logQueue := { s.logQueue with buf := rest }, committed := s.committed ++ [x] }
  | .running, [] => if s.logQueue.closed then some s else none
  | _, _ => none

def commitStop (s : Pool) : Option Pool :=
  match s.committer with
  | .running => if s.stopClosed then some { s with committer := .draining } else none
  | _ => none

/-- One pass of the loop after `stop` (tinylog.go:280-291): commit a queued log, or stop at
the closed, empty queue; on an open, empty queue the `default` branch spins. -/
def commitDrain (s : Pool) : Option Pool :=
  match s.committer, s.logQueue.buf with
  | .draining, x :: rest => some { s with logQueue := { s.logQueue with buf := rest }, committed := s.committed ++ [x] }
  | .draining, [] => if s.logQueue.closed then some { s with committer := .done } else none
  | _, _ => none

def step (s : Pool) (a : Action) : Option Pool :=
  if s.panicked.isSome then none
  else match a with
    | .writerTick => s.writerSelect false
    | .writerStop => s.writerSelect true
    | .writerSend => s.writerSend
    | .dispatchRecv i => s.dispatchRecv i
    | .dispatchPut i => s.dispatchPut i
    | .dispatchWake i => s.dispatchWake i
    | .commitRecv => s.commitRecv
    | .commitStop => s.commitStop
    | .commitDrain => s.commitDrain
    | .close => some { s with stopClosed := true }

/-- A schedule, performed move by move; `none` if some move is not enabled. -/
def run (s : Pool) : List Action → Option Pool
  | [] => some s
  | a :: as => (s.step a).bind (·.run as)

/-- `close` has returned: `stop` is closed and `stopWg.Wait()` saw the committer and every
dispatcher call `Done`. -/
def Returned (s : Pool) : Prop :=
  s.stopClosed = true ∧ s.committer = .done ∧ ∀ d ∈ s.dispatchers, d = .done

instance (s : Pool) : Decidable s.Returned := inferInstanceAs (Decidable (_ ∧ _ ∧ _))

end Pool

end UnitDB.Source.LogPool
