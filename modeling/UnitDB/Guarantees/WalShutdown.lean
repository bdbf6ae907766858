import UnitDB.Source.Wal

/-!
# What `Close` waits for

`Close` sets the closed flag, waits on `wg`, and closes the log store; `SignalLogApplied` holds
`wg` from its `wg.Add(1)` to its deferred `wg.Done()`. Over every set of concurrent calls and
every interleaving, this much holds: a `SignalLogApplied` whose `wg.Add(1)` came before the
return of `Close`'s `wg.Wait()` has called `logStore.del` before that return
(`close_waits_for_added_signals`). The run invariant behind it (`Inv`) ties the WaitGroup's
counter to the calls between their `Add` and their `Done`.

That is all `Close` waits for. `put` and `SignalLogApplied` never read the closed flag, and
`Close` never takes `mu`, so a `SignalLogApplied` that took its read lock before `Close` set the
flag, but had not yet called `wg.Add(1)` when `wg.Wait()` returned, deletes from the log store
after `logStore.close()`; so do a `put` and a `SignalLogApplied` that start after `Close` has
returned, and both return as if the log were open (`store_used_after_close`).

Of the panics of `sync.WaitGroup`, `wg.Done()`'s on a negative counter never happens: a
`SignalLogApplied` calls `Done` only after its own `Add`. The other two are reachable. A `Done`
that brings the counter to zero with `Close` waiting reads the state again, stores zero and
releases the waiter in moves of its own; a `wg.Add(1)` after its `state.Add` and before its
`Store(0)` finds a zero counter with a waiter and panics with `Add called concurrently with Wait`,
and that panic happens nowhere else (`Window`, `step_panicked`). A `wg.Add(1)` after the
`Store(0)` but before `Close` wakes makes the wake-up panic instead
(`wait_group_panics_in_release_window`).

What the closed flag does keep: `setClosed`'s compare-and-swap lets one `Close` through, so over
every interleaving at most one `Close` goes past it and the log store is closed at most once, by a
`Close` that then returns `nil` (`close_once`).
-/

set_option autoImplicit false

namespace UnitDB.Guarantees.WalShutdown
open UnitDB.Source.Wal

/-- Setting goroutine `j` from `c` to `c'` moves a count over the calls by the difference. -/
theorem countP_set_of_get {l : List Call} {j : Nat} {c : Call} (p : Call → Bool) (c' : Call)
    (get : l[j]? = some c) :
    (l.set j c').countP p + (if p c then 1 else 0) = l.countP p + (if p c' then 1 else 0) := by
  obtain ⟨hj, rfl⟩ := List.getElem?_eq_some_iff.mp get
  have := List.boole_getElem_le_countP p l j hj
  rw [List.countP_set _ _ _ _ hj]
  omega

theorem countP_ne_zero_of_get {l : List Call} {j : Nat} {c : Call} {p : Call → Bool} (get : l[j]? = some c)
    (hc : p c) : l.countP p ≠ 0 :=
  Nat.pos_iff_ne_zero.mp (List.countP_pos_iff.mpr ⟨c, List.getElem?_mem get, hc⟩)

/-- No call a goroutine starts at is counted by `p`. -/
theorem opened_countP (reqs : List Request) {p : Call → Bool} (hp : ∀ r : Request, p r.call = false) :
    (opened reqs).calls.countP p = 0 := by
  rw [opened, List.countP_map]
  exact List.countP_eq_zero.mpr fun r _ => by simp [hp]

/-- A call past its `wg.Add(1)` and out of flight has deleted. -/
theorem Call.deleted_of_hasAdded {c : Call} (added : c.hasAdded) (done : c.inFlight = false) :
    ∃ t, c.deleted = some t := by
  rcases c with _ | _ | ⟨t, _ | _ | _ | _ | _ | _ | _ | _⟩ <;> simp_all [Call.hasAdded, Call.inFlight, Call.deleted]

/-- Every `SignalLogApplied` whose `wg.Add(1)` is in the history before a return of `wg.Wait()`
has its `logStore.del` there too. -/
def Waits (events : List Event) : Prop :=
  ∀ i j pre post, events = pre ++ Event.waited i :: post → Event.added j ∈ pre → ∃ t, Event.del j t ∈ pre

theorem Waits.append {l : List Event} {e : Event} (w : Waits l)
    (h : ∀ i, e = .waited i → ∀ j, Event.added j ∈ l → ∃ t, Event.del j t ∈ l) : Waits (l ++ [e]) := by
  intro i j pre post split added
  rcases List.eq_nil_or_concat post with rfl | ⟨post, x, rfl⟩
  · obtain ⟨rfl, last⟩ := List.append_inj' split rfl
    exact h i (List.singleton_inj.mp last) j added
  · rw [List.concat_eq_append, ← List.cons_append, ← List.append_assoc] at split
    exact w i j pre post (List.append_inj' split rfl).1 added

/-- What every reachable state keeps: the WaitGroup counts the calls in flight; the history's
`Add`s and `del`s are those of the calls' program counters; and `Waits`. -/
structure Inv (s : WAL) : Prop where
  counter : s.wg.counter = s.calls.countP Call.inFlight
  added : ∀ j, Event.added j ∈ s.events → ∃ c, s.calls[j]? = some c ∧ c.hasAdded
  deleted : ∀ j c t, s.calls[j]? = some c → c.deleted = some t → Event.del j t ∈ s.events
  waits : Waits s.events

theorem opened_inv (reqs : List Request) : Inv (opened reqs) where
  counter := (opened_countP reqs fun r => by cases r <;> rfl).symm
  added _ h := nomatch h
  deleted j c t get del := by
    obtain ⟨r, -, rfl⟩ := List.mem_map.mp (List.getElem?_mem get)
    rcases r <;> simp [Request.call, Call.deleted] at del
  waits _ _ pre _ h := by simp [opened] at h

section
variable {s s' : WAL}

/-- A move that sets goroutine `j` from `c` to `c'`, records at most the event `e`, and keeps
the WaitGroup's counter in step, keeps the invariant, provided the event and the new program
counter agree. -/
theorem Inv.advance (inv : Inv s) {j : Nat} {c c' : Call} {e : Option Event}
    (get : s.calls[j]? = some c) (calls : s'.calls = s.calls.set j c')
    (events : s'.events = s.events ++ e.toList)
    (counter : s'.wg.counter + (if c.inFlight then 1 else 0) = s.wg.counter + (if c'.inFlight then 1 else 0))
    (keepsAdded : c.hasAdded → c'.hasAdded)
    (newAdded : ∀ k, e = some (.added k) → k = j ∧ c'.hasAdded)
    (newDel : ∀ t, c'.deleted = some t → c.deleted = some t ∨ e = some (.del j t))
    (newWait : ∀ i, e = some (.waited i) → s.wg.counter = 0) : Inv s' := by
  obtain ⟨hj, rfl⟩ := List.getElem?_eq_some_iff.mp get
  have getNew : ∀ k, s'.calls[k]? = if j = k then some c' else s.calls[k]? := by
    intro k
    rw [calls, List.getElem?_set]
    simp only [hj, if_true]
  refine ⟨?_, ?_, ?_, ?_⟩
  · have := countP_set_of_get Call.inFlight c' get
    rw [calls]
    have := inv.counter
    omega
  · intro k added
    rw [events, List.mem_append] at added
    rw [getNew]
    rcases added with old | new
    · obtain ⟨c₀, get₀, has⟩ := inv.added k old
      by_cases jk : j = k
      · subst jk
        rw [get, Option.some.injEq] at get₀
        exact ⟨c', if_pos rfl, keepsAdded (get₀ ▸ has)⟩
      · exact ⟨c₀, by rw [if_neg jk, get₀], has⟩
    · obtain ⟨rfl, has⟩ := newAdded k (Option.mem_toList.mp new)
      exact ⟨c', if_pos rfl, has⟩
  · intro k c₀ t get₀ del
    rw [events, List.mem_append]
    rw [getNew] at get₀
    by_cases jk : j = k
    · subst jk
      rw [if_pos rfl, Option.some.injEq] at get₀
      subst get₀
      rcases newDel t del with old | new
      · exact .inl (inv.deleted j _ t get old)
      · exact .inr (Option.mem_toList.mpr new)
    · rw [if_neg jk] at get₀
      exact .inl (inv.deleted k c₀ t get₀ del)
  · rw [events]
    rcases e with _ | e
    · simpa using inv.waits
    · refine inv.waits.append fun i ew k added => ?_
      have idle : s.calls.countP Call.inFlight = 0 := inv.counter ▸ newWait i (ew ▸ rfl)
      obtain ⟨c₀, get₀, has⟩ := inv.added k added
      have out : c₀.inFlight = false := by
        simpa using List.countP_eq_zero.mp idle c₀ (List.getElem?_mem get₀)
      obtain ⟨t, del⟩ := Call.deleted_of_hasAdded has out
      exact ⟨t, inv.deleted k c₀ t get₀ del⟩

theorem Inv.panic (inv : Inv s) (msg : String) : Inv (s.panic msg) :=
  ⟨inv.counter, inv.added, inv.deleted, inv.waits⟩

/-- A `SignalLogApplied` between its `Add` and its `Done` keeps the counter above zero. -/
theorem Inv.counter_ne_zero (inv : Inv s) {j : Nat} {c : Call} (get : s.calls[j]? = some c) (flying : c.inFlight) :
    s.wg.counter ≠ 0 :=
  inv.counter ▸ countP_ne_zero_of_get get flying

/-! ## The window of a releasing `Done` -/

/-- What holds between a `Done`'s `state.Add` that brings the counter to zero with waiters and its
`state.Store(0)`: the state is still the one it left, and no other `Done` is there; outside such a
window, every waiter waits on a counter above zero. -/
structure Window (s : WAL) : Prop where
  quiet : s.calls.countP Call.inWindow ≠ 0 → s.wg.counter = 0 ∧ s.wg.waiters ≠ 0
  single : s.calls.countP Call.inWindow ≤ 1
  waiters : s.wg.waiters ≠ 0 → s.wg.counter ≠ 0 ∨ s.calls.countP Call.inWindow ≠ 0

/-- With no goroutine in a window, `Window` is that every waiter waits on a counter above zero. -/
theorem Window.of_shut (idle : s.calls.countP Call.inWindow = 0) (waiters : s.wg.waiters ≠ 0 → s.wg.counter ≠ 0) :
    Window s :=
  ⟨fun h => absurd idle h, idle ▸ Nat.zero_le 1, fun w => .inl (waiters w)⟩

theorem opened_window (reqs : List Request) : Window (opened reqs) :=
  .of_shut (opened_countP reqs fun r => by cases r <;> rfl) fun h => absurd rfl h

theorem Window.panic (win : Window s) (msg : String) : Window (s.panic msg) :=
  ⟨win.quiet, win.single, win.waiters⟩

/-- A call in its window sees the state its `Done` left. -/
theorem Window.at_call (win : Window s) {j : Nat} {c : Call} (get : s.calls[j]? = some c) (hc : c.inWindow) :
    s.wg.counter = 0 ∧ s.wg.waiters ≠ 0 :=
  win.quiet (countP_ne_zero_of_get get hc)

/-- Unless the counter is zero with waiters, no goroutine is in a window. -/
theorem Window.idle (win : Window s) (shut : ¬(s.wg.counter = 0 ∧ s.wg.waiters ≠ 0)) :
    s.calls.countP Call.inWindow = 0 :=
  Decidable.byContradiction fun n => shut (win.quiet n)

/-- A move that keeps the counter, the waiters, and whether goroutine `j` is in a window keeps
`Window`. -/
theorem Window.keep (win : Window s) {j : Nat} {c c' : Call} (get : s.calls[j]? = some c)
    (calls : s'.calls = s.calls.set j c') (same : c'.inWindow = c.inWindow)
    (counter : s'.wg.counter = s.wg.counter) (waiters : s'.wg.waiters = s.wg.waiters) : Window s' := by
  have n : s'.calls.countP Call.inWindow = s.calls.countP Call.inWindow := by
    have := countP_set_of_get Call.inWindow c' get
    rw [same] at this
    rw [calls]
    omega
  exact ⟨n ▸ counter ▸ waiters ▸ win.quiet, n ▸ win.single, n ▸ counter ▸ waiters ▸ win.waiters⟩

/-- A move of a goroutine outside the windows, made when none is open, that leaves every waiter
on a counter above zero keeps `Window`. -/
theorem Window.shut (win : Window s) {j : Nat} {c c' : Call} (get : s.calls[j]? = some c)
    (calls : s'.calls = s.calls.set j c') (out : c.inWindow = false) (out' : c'.inWindow = false)
    (shut : ¬(s.wg.counter = 0 ∧ s.wg.waiters ≠ 0)) (waiters : s'.wg.waiters ≠ 0 → s'.wg.counter ≠ 0) :
    Window s' := by
  have := countP_set_of_get Call.inWindow c' get
  rw [out, out', ← calls, win.idle shut] at this
  exact .of_shut (by simpa using this) waiters

theorem Window.closeStep (win : Window s) {j : Nat} {pc : ClosePc} (get : s.calls[j]? = some (.close pc))
    (h : s.closeStep j pc = some s') : Window s' := by
  cases pc <;> simp only [WAL.closeStep] at h
  case waiting =>
    split at h <;> cases h
    · exact win.keep get rfl rfl rfl rfl
    -- a waiter counts itself only on a counter above zero
    · exact win.shut get rfl rfl rfl (fun h => ‹¬_› h.1) fun _ => ‹_›
  case blocked =>
    split at h
    · cases h
    · split at h <;> cases h
      · exact win.panic _
      · exact win.keep get rfl rfl rfl rfl
  all_goals (try split at h) <;> cases h <;> exact win.keep get rfl rfl rfl rfl

theorem Window.signalStep (win : Window s) {j : Nat} {t : Int} {pc : SignalPc}
    (get : s.calls[j]? = some (.signalLogApplied t pc)) (h : s.signalStep j t pc = some s') : Window s' := by
  cases pc <;> simp only [WAL.signalStep] at h
  case locked =>
    split at h <;> cases h
    · exact win.panic _
    · obtain ⟨counter, -, shut⟩ := WaitGroup.add_ok ‹_›
      exact win.shut get rfl rfl rfl shut fun _ => by simp [counter]
  case applied =>
    split at h <;> cases h
    · exact win.panic _
    · obtain ⟨counter, waiters, zero⟩ := WaitGroup.done_returns ‹_›
      exact win.shut get rfl rfl rfl (fun h => by omega) fun w z => w (waiters ▸ zero z)
    -- the `Done` that opens a window: none was open, as the counter was one
    · obtain ⟨one, zero, waiters, w⟩ := WaitGroup.done_releases ‹_›
      have := countP_set_of_get Call.inWindow (.signalLogApplied t (.checking ‹_›)) get
      rw [win.idle fun h => by omega] at this
      simp only [Call.inWindow, Bool.false_eq_true, if_true, if_false] at this
      exact ⟨fun _ => ⟨zero, waiters ▸ w⟩, by simp only [WAL.advance]; omega, fun _ => .inr (by simp only [WAL.advance]; omega)⟩
  case checking =>
    split at h <;> cases h
    · exact win.panic _
    · exact win.keep get rfl rfl rfl rfl
  -- the `Store(0)` closes the only window
  case storing =>
    cases h
    have moved := countP_set_of_get Call.inWindow (.signalLogApplied t (.releasing ‹_›)) get
    have := win.single
    simp only [Call.inWindow, Bool.false_eq_true, if_true, if_false] at moved
    exact .of_shut (by simp only [WAL.advance]; omega) fun w => absurd rfl w
  case releasing =>
    split at h <;> cases h <;> exact win.keep get rfl rfl rfl rfl
  all_goals cases h <;> exact win.keep get rfl rfl rfl rfl

/-- One move keeps `Window`. -/
theorem Window.step (win : Window s) {j : Nat} (h : s.step j = some s') : Window s' := by
  unfold WAL.step at h
  split at h
  · cases h
  · split at h
    · exact win.closeStep ‹_› h
    · rename_i returned get
      cases returned <;> simp only [WAL.putStep] at h <;> cases h
      exact win.keep get rfl rfl rfl rfl
    · exact win.signalStep ‹_› h
    · cases h

/-- A whole schedule keeps `Window`. -/
theorem Window.run (win : Window s) (schedule : List Nat) : Window (s.run schedule) := by
  induction schedule generalizing s with
  | nil => exact win
  | cons j js ih =>
    rcases h : s.step j with _ | s'
    · simpa [WAL.run, h] using ih win
    · simpa [WAL.run, h] using ih (win.step h)

/-! ## The invariant over every run -/

theorem Inv.closeStep (inv : Inv s) {j : Nat} {pc : ClosePc} (get : s.calls[j]? = some (.close pc))
    (h : s.closeStep j pc = some s') : Inv s' := by
  cases pc <;> simp only [WAL.closeStep] at h
  case start =>
    split at h <;> cases h <;>
      exact inv.advance get rfl rfl rfl id (by simp) (by simp [Call.deleted]) (by simp)
  case waiting =>
    split at h <;> cases h
    · exact inv.advance get rfl rfl rfl id (by simp) (by simp [Call.deleted]) (fun _ _ => ‹_›)
    · exact inv.advance get rfl rfl rfl id (by simp) (by simp [Call.deleted]) (by simp)
  case blocked =>
    split at h
    · cases h
    · split at h <;> cases h
      · exact inv.panic _
      · exact inv.advance get rfl rfl rfl id (by simp) (by simp [Call.deleted]) (fun _ _ => by simp_all)
  case closing =>
    cases h
    exact inv.advance get rfl rfl rfl id (by simp) (by simp [Call.deleted]) (by simp)
  case returned => cases h

theorem Inv.putStep (inv : Inv s) {j : Nat} {log : LogInfo} {returned : Bool}
    (get : s.calls[j]? = some (.put log returned)) (h : s.putStep j log returned = some s') : Inv s' := by
  cases returned <;> simp only [WAL.putStep] at h <;> cases h
  exact inv.advance get rfl rfl rfl id (by simp) (by simp [Call.deleted]) (by simp)

/-- The moves of `SignalLogApplied` keep the invariant; the `Store(0)` needs `Window`, by which
the counter it clears is already zero. -/
theorem Inv.signalStep (inv : Inv s) (win : Window s) {j : Nat} {t : Int} {pc : SignalPc}
    (get : s.calls[j]? = some (.signalLogApplied t pc)) (h : s.signalStep j t pc = some s') : Inv s' := by
  cases pc <;> simp only [WAL.signalStep] at h
  case start =>
    cases h
    exact inv.advance get rfl rfl rfl id (by simp) (by simp [Call.deleted]) (by simp)
  case locked =>
    split at h <;> cases h
    · exact inv.panic _
    · exact inv.advance get rfl rfl (by simp [Call.inFlight, (WaitGroup.add_ok ‹_›).1]) (fun _ => rfl)
        (by simp [Call.hasAdded]) (by simp [Call.deleted]) (by simp)
  case added =>
    cases h
    exact inv.advance get rfl rfl rfl (fun _ => rfl) (by simp) (by simp [Call.deleted]) (by simp)
  case applied =>
    split at h <;> cases h
    · exact inv.panic _
    · exact inv.advance get rfl rfl (by simp [Call.inFlight, (WaitGroup.done_returns ‹_›).1]) (fun _ => rfl)
        (by simp) (by simp [Call.deleted]) (by simp)
    · exact inv.advance get rfl rfl (by simp [Call.inFlight, (WaitGroup.done_releases ‹_›).2.1, (WaitGroup.done_releases ‹_›).1])
        (fun _ => rfl) (by simp) (by simp [Call.deleted]) (by simp)
  case checking =>
    split at h <;> cases h
    · exact inv.panic _
    · exact inv.advance get rfl rfl rfl (fun _ => rfl) (by simp) (by simp [Call.deleted]) (by simp)
  case storing =>
    cases h
    exact inv.advance get rfl rfl (by simp [Call.inFlight, (win.at_call get rfl).1]) (fun _ => rfl) (by simp)
      (by simp [Call.deleted]) (by simp)
  case releasing =>
    split at h <;> cases h <;>
      exact inv.advance get rfl rfl rfl (fun _ => rfl) (by simp) (by simp [Call.deleted]) (by simp)
  case returned => cases h

/-- One move keeps the invariant. -/
theorem Inv.step (inv : Inv s) (win : Window s) {j : Nat} (h : s.step j = some s') : Inv s' := by
  unfold WAL.step at h
  split at h
  · cases h
  · split at h
    · exact inv.closeStep ‹_› h
    · exact inv.putStep ‹_› h
    · exact inv.signalStep win ‹_› h
    · cases h

/-- A whole schedule keeps the invariant. -/
theorem Inv.run (inv : Inv s) (win : Window s) (schedule : List Nat) : Inv (s.run schedule) := by
  induction schedule generalizing s with
  | nil => exact inv
  | cons j js ih =>
    rcases h : s.step j with _ | s'
    · simpa [WAL.run, h] using ih inv win
    · simpa [WAL.run, h] using ih (inv.step win h) (win.step h)

/-! ## Which panics -/

/-- Where a move can panic: `Done` never finds a negative counter; the misuse panic comes only
while a `Done` is in its window, from an `Add(1)` there or from that `Done`'s own check; and
`Wait` panics on reuse. -/
theorem step_panicked (inv : Inv s) (win : Window s) {j : Nat} (h : s.step j = some s') :
    s'.panicked = none ∨
      (s'.panicked = some "sync: WaitGroup misuse: Add called concurrently with Wait" ∧
        s.calls.countP Call.inWindow = 1) ∨
      s'.panicked = some "sync: WaitGroup is reused before previous Wait has returned" := by
  unfold WAL.step at h
  split at h
  · cases h
  rename_i calm
  have calm : s.panicked = none := Option.not_isSome_iff_eq_none.mp calm
  have opened : ∀ c, s.calls[j]? = some c → c.inWindow → s.calls.countP Call.inWindow = 1 :=
    fun c get hc => by have := win.single; have := countP_ne_zero_of_get get hc; omega
  split at h
  · rename_i pc get
    cases pc <;> simp only [WAL.closeStep] at h <;> (repeat' split at h) <;> cases h <;> simp [calm, WAL.panic]
  · rename_i returned get
    cases returned <;> simp only [WAL.putStep] at h <;> cases h
    exact .inl calm
  · rename_i t pc get
    cases pc <;> simp only [WAL.signalStep] at h
    case locked =>
      split at h <;> cases h
      · obtain ⟨rfl, idle, waiting⟩ := WaitGroup.add_error ‹_›
        have := win.single
        have := (win.waiters waiting).resolve_left (not_not.mpr idle)
        exact .inr (.inl ⟨rfl, by omega⟩)
      · exact .inl calm
    case applied =>
      split at h <;> cases h
      · exact absurd (WaitGroup.done_error ‹_›) (inv.counter_ne_zero get rfl)
      all_goals exact .inl calm
    case checking =>
      split at h <;> cases h
      · exact .inr (.inl ⟨rfl, opened _ get rfl⟩)
      · exact .inl calm
    all_goals (try split at h) <;> cases h <;> exact .inl calm
  · cases h

/-- No panic, or one of the two a run can reach. -/
def Panics (s : WAL) : Prop :=
  s.panicked = none ∨ s.panicked = some "sync: WaitGroup misuse: Add called concurrently with Wait" ∨
    s.panicked = some "sync: WaitGroup is reused before previous Wait has returned"

/-- A whole schedule keeps `Panics`. -/
theorem Panics.run (p : Panics s) (inv : Inv s) (win : Window s) (schedule : List Nat) : Panics (s.run schedule) := by
  induction schedule generalizing s with
  | nil => exact p
  | cons j js ih =>
    rcases h : s.step j with _ | s'
    · simpa [WAL.run, h] using ih p inv win
    · simp only [WAL.run, h, Option.getD_some]
      refine ih ?_ (inv.step win h) (win.step h)
      rcases step_panicked inv win h with q | ⟨q, -⟩ | q <;> simp [Panics, q]

end

/-- Over every set of concurrent calls and every interleaving, every `SignalLogApplied` whose
`wg.Add(1)` came before a return of `Close`'s `wg.Wait()` called `logStore.del` before it. -/
theorem close_waits_for_added_signals (reqs : List Request) (schedule : List Nat) :
    Waits ((opened reqs).run schedule).events :=
  ((opened_inv reqs).run (opened_window reqs) schedule).waits

/-- A `SignalLogApplied` that has called `wg.Add(1)` keeps `Close` blocked in `wg.Wait()` until
the last move of its `Done` releases it. -/
example : ((opened [.close, .signalLogApplied 7]).run [1, 1, 0, 0, 1, 0, 1, 1, 0, 1, 1, 0, 0]).events =
    [.added 1, .del 1 7, .waited 0, .close 0] := rfl

/-- `Close`, a `put` and two `SignalLogApplied`s. -/
def raceRequests : List Request := [.close, .put ⟨0, 3⟩, .signalLogApplied 7, .signalLogApplied 8]

/-- Goroutine 2 takes its read lock; `Close` sets the flag, finds the counter at zero, and
closes the log store; goroutine 2 goes on; then `put` runs, and goroutine 3 from its start. -/
def raceSchedule : List Nat := [2, 0, 0, 0, 2, 2, 2, 1, 3, 3, 3, 3]

/-- After `logStore.close()`, the log store receives goroutine 2's `del(7)`, the `put` and
goroutine 3's `del(8)`; every call returns, the two `SignalLogApplied`s with `nil`, and no
goroutine panics. -/
theorem store_used_after_close :
    ((opened raceRequests).run raceSchedule).events =
        [.waited 0, .close 0, .added 2, .del 2 7, .put 1 ⟨1, 3⟩, .added 3, .del 3 8] ∧
      ((opened raceRequests).run raceSchedule).calls =
        [.close (.returned none), .put ⟨0, 3⟩ true, .signalLogApplied 7 .returned, .signalLogApplied 8 .returned] ∧
      ((opened raceRequests).run raceSchedule).panicked = none :=
  ⟨rfl, rfl, rfl⟩

/-- Over every set of concurrent calls and every interleaving, `wg.Done()` never panics on a
negative counter, and `Add called concurrently with Wait` is raised only at a move made while a
`Done` is between its `state.Add` and its `state.Store(0)`. Both panics left are reachable. In
the first run, `Close` blocks on goroutine 1's `Add`; goroutine 1's `Done` brings the counter to
zero, and goroutine 2's `wg.Add(1)` comes before its `Store(0)`. In the second, goroutine 2's
`wg.Add(1)` comes after goroutine 1's `Done` has released `Close` but before `Close` wakes, and the
wake-up finds the counter above zero. -/
theorem wait_group_panics_in_release_window :
    (∀ reqs schedule, ((opened reqs).run schedule).panicked = none ∨
        ((opened reqs).run schedule).panicked = some "sync: WaitGroup misuse: Add called concurrently with Wait" ∨
        ((opened reqs).run schedule).panicked = some "sync: WaitGroup is reused before previous Wait has returned") ∧
      (∀ reqs schedule j s', ((opened reqs).run schedule).step j = some s' →
        s'.panicked = some "sync: WaitGroup misuse: Add called concurrently with Wait" →
        ((opened reqs).run schedule).calls.countP Call.inWindow = 1) ∧
      ((opened [.close, .signalLogApplied 7, .signalLogApplied 8]).run [1, 1, 0, 0, 1, 1, 2, 2]).panicked =
        some "sync: WaitGroup misuse: Add called concurrently with Wait" ∧
      ((opened [.close, .signalLogApplied 7, .signalLogApplied 8]).run [1, 1, 0, 0, 1, 1, 1, 1, 1, 2, 2, 0]).panicked =
        some "sync: WaitGroup is reused before previous Wait has returned" := by
  refine ⟨fun reqs schedule => Panics.run (.inl rfl) (opened_inv reqs) (opened_window reqs) schedule,
    fun reqs schedule j s' h misuse => ?_, rfl, rfl⟩
  have inv := (opened_inv reqs).run (opened_window reqs) schedule
  rcases step_panicked inv ((opened_window reqs).run schedule) h with q | ⟨-, q⟩ | q
  · simp [q] at misuse
  · exact q
  · rw [q] at misuse
    exact absurd misuse (by decide)

/-! ## One `Close` gets through -/

/-- A `Close` past its `setClosed`: the one whose compare-and-swap set the flag. -/
def Call.pastSetClosed : Call → Bool
  | .close .waiting | .close .blocked | .close .closing | .close (.returned none) => true
  | _ => false

/-- A `Close` that returned `nil`. -/
def Call.closedStore : Call → Bool
  | .close (.returned none) => true
  | _ => false

/-- `logStore.close()`. -/
def Event.isClose : Event → Bool
  | .close _ => true
  | _ => false

/-- What the flag keeps: one `Close` past `setClosed` once the flag is set, none before; and one
`logStore.close()` in the history for each `Close` that returned `nil`. -/
structure CloseOnce (s : WAL) : Prop where
  winners : s.calls.countP Call.pastSetClosed = if s.closed then 1 else 0
  closes : s.events.countP Event.isClose = s.calls.countP Call.closedStore

theorem opened_closeOnce (reqs : List Request) : CloseOnce (opened reqs) where
  winners := by
    rw [opened, List.countP_map]
    exact List.countP_eq_zero.mpr fun r _ => by cases r <;> exact Bool.false_ne_true
  closes := by
    rw [opened, List.countP_map]
    exact (List.countP_eq_zero.mpr fun r _ => by cases r <;> exact Bool.false_ne_true).symm

section
variable {s s' : WAL}

/-- A move of goroutine `j` from `c` to `c'`, recording at most the event `e`, keeps `CloseOnce`
when the flag and the calls past `setClosed` change together, and `logStore.close()` is recorded
exactly when `c'` returns `nil` from `Close`. -/
theorem CloseOnce.move (co : CloseOnce s) {j : Nat} {c c' : Call} {e : Option Event}
    (get : s.calls[j]? = some c) (calls : s'.calls = s.calls.set j c')
    (events : s'.events = s.events ++ e.toList)
    (winners : (if s'.closed then 1 else 0) + (if Call.pastSetClosed c then 1 else 0) =
      (if s.closed then 1 else 0) + (if Call.pastSetClosed c' then 1 else 0))
    (store : e.toList.countP Event.isClose + (if Call.closedStore c then 1 else 0) =
      if Call.closedStore c' then 1 else 0) : CloseOnce s' := by
  obtain ⟨hj, hc⟩ := List.getElem?_eq_some_iff.mp get
  have le₁ := List.boole_getElem_le_countP Call.pastSetClosed s.calls j hj
  have le₂ := List.boole_getElem_le_countP Call.closedStore s.calls j hj
  rw [hc] at le₁ le₂
  refine ⟨?_, ?_⟩
  · rw [calls, List.countP_set _ _ _ _ hj, hc]
    have := co.winners
    omega
  · rw [events, calls, List.countP_append, List.countP_set _ _ _ _ hj, hc, co.closes]
    omega

theorem CloseOnce.panic (co : CloseOnce s) (msg : String) : CloseOnce (s.panic msg) :=
  ⟨co.winners, co.closes⟩

theorem CloseOnce.closeStep (co : CloseOnce s) {j : Nat} {pc : ClosePc} (get : s.calls[j]? = some (.close pc))
    (h : s.closeStep j pc = some s') : CloseOnce s' := by
  cases pc <;> simp only [WAL.closeStep] at h
  case start =>
    split at h <;> cases h
    · exact co.move get rfl rfl rfl rfl
    -- the compare-and-swap: no `Close` was past it, and this one now is
    · exact co.move get rfl rfl (by simp [WAL.advance, ‹¬s.closed = true›, Call.pastSetClosed]) rfl
  case waiting => split at h <;> cases h <;> exact co.move get rfl rfl rfl rfl
  case blocked =>
    split at h
    · cases h
    · split at h <;> cases h
      · exact co.panic _
      · exact co.move get rfl rfl rfl rfl
  case closing =>
    cases h
    exact co.move get rfl rfl rfl rfl
  case returned => cases h

/-- One move keeps `CloseOnce`. -/
theorem CloseOnce.step (co : CloseOnce s) {j : Nat} (h : s.step j = some s') : CloseOnce s' := by
  unfold WAL.step at h
  split at h
  · cases h
  · split at h
    · exact co.closeStep ‹_› h
    · rename_i returned get
      cases returned <;> simp only [WAL.putStep] at h <;> cases h
      exact co.move get rfl rfl rfl rfl
    · rename_i pc get
      cases pc <;> simp only [WAL.signalStep] at h <;> (try split at h) <;> cases h <;>
        first | exact co.panic _ | exact co.move get rfl rfl rfl rfl
    · cases h

/-- A whole schedule keeps `CloseOnce`. -/
theorem CloseOnce.run (co : CloseOnce s) (schedule : List Nat) : CloseOnce (s.run schedule) := by
  induction schedule generalizing s with
  | nil => exact co
  | cons j js ih =>
    rcases h : s.step j with _ | s'
    · simpa [WAL.run, h] using ih co
    · simpa [WAL.run, h] using ih (co.step h)

end

/-- Over every set of concurrent calls and every interleaving, at most one `Close` gets past
`setClosed`, and one does once the flag is set; the log store receives `close` once for each
`Close` that returned `nil`, and at most one `Close` returns `nil`. -/
theorem close_once (reqs : List Request) (schedule : List Nat) :
    ((opened reqs).run schedule).calls.countP Call.pastSetClosed =
        (if ((opened reqs).run schedule).closed then 1 else 0) ∧
      ((opened reqs).run schedule).events.countP Event.isClose =
        ((opened reqs).run schedule).calls.countP Call.closedStore ∧
      ((opened reqs).run schedule).calls.countP Call.closedStore ≤ 1 := by
  have co := (opened_closeOnce reqs).run schedule
  have le : ((opened reqs).run schedule).calls.countP Call.closedStore ≤
      ((opened reqs).run schedule).calls.countP Call.pastSetClosed :=
    List.countP_mono_left fun c _ => by rcases c with (_ | _ | _ | _ | ⟨_ | _⟩) | _ | _ <;> simp [Call.closedStore, Call.pastSetClosed]
  refine ⟨co.winners, co.closes, ?_⟩
  rw [co.winners] at le
  split at le <;> omega

end UnitDB.Guarantees.WalShutdown
