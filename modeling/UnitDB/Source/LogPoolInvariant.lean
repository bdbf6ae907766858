import Mathlib.Data.List.Nodup
import UnitDB.Source.LogPool

/-!
# What every interleaving of the log pool keeps

The invariant `Pool.Inv` of every state `newLogPool` can reach by any schedule:

* the writer sends each tiny log once (numbers below `p.tinyLog` are the ones sent);
* every log sent on `writeQueue` is, exactly once, passed to `tinyCommit`, discarded by a
  dispatcher, or still in flight (in `writeQueue`, held by a dispatcher, or in
  `logQueue`), counted per log (`conserve`);
* a queue is closed only by the goroutine that finishes with it: `writeQueue` by the
  writer, `logQueue` by a dispatcher, which is done from then on; and a finished
  dispatcher or committer leaves its queue closed and empty.

`step_inv` proves it of one move of each goroutine, `run_inv` of every schedule.
-/

namespace UnitDB.Source.LogPool

/-- The log a dispatcher holds. -/
def DispatchPc.held : DispatchPc → List Nat
  | .holding x => [x]
  | _ => []

namespace Pool

/-- The logs sent and neither committed nor discarded: queued, or held by a dispatcher. -/
def inflight (s : Pool) : List Nat :=
  s.writeQueue.buf ++ (s.dispatchers.map DispatchPc.held).flatten ++ s.logQueue.buf

structure Inv (s : Pool) : Prop where
  fresh : s.writer ≠ .done → ∀ x ∈ s.sent, x < s.tinyLog
  sentNodup : s.sent.Nodup
  pending : ∀ x b, s.writer = .sending x b → x = s.tinyLog
  conserve : ∀ x, s.sent.count x = s.committed.count x + s.dropped.count x + s.inflight.count x
  writeClosed : s.writeQueue.closed = true → s.writer = .done
  drained : .done ∈ s.dispatchers → s.writeQueue.closed = true ∧ s.writeQueue.buf = []
  logClosed : s.logQueue.closed = true ↔ .done ∈ s.dispatchers
  committerDone : s.committer = .done → s.logQueue.closed = true ∧ s.logQueue.buf = []

theorem newLogPool_inv (opts : LogOptions) : (newLogPool opts).Inv where
  fresh := by simp [newLogPool]
  sentNodup := List.nodup_nil
  pending := by simp [newLogPool]
  conserve := by simp [newLogPool, inflight, List.flatten_replicate_nil, DispatchPc.held]
  writeClosed := by simp [newLogPool]
  drained := by simp [newLogPool, List.mem_replicate]
  logClosed := by simp [newLogPool, List.mem_replicate]
  committerDone := by simp [newLogPool]

/-! ## Replacing one dispatcher's state -/

theorem set_split {l : List DispatchPc} {i : Nat} {q : DispatchPc} (hq : l[i]? = some q) (p : DispatchPc) :
    l = l.take i ++ q :: l.drop (i + 1) ∧ l.set i p = l.take i ++ p :: l.drop (i + 1) := by
  obtain ⟨hi, rfl⟩ := List.getElem?_eq_some_iff.mp hq
  exact ⟨by rw [← List.drop_eq_getElem_cons hi, List.take_append_drop], List.set_eq_take_cons_drop p hi⟩

theorem count_held_set {l : List DispatchPc} {i : Nat} {q : DispatchPc} (hq : l[i]? = some q)
    (p : DispatchPc) (x : Nat) :
    ((l.set i p).map DispatchPc.held).flatten.count x + q.held.count x =
      (l.map DispatchPc.held).flatten.count x + p.held.count x := by
  obtain ⟨hl, hset⟩ := set_split hq p
  rw [hset]
  conv_rhs => rw [hl]
  simp only [List.map_append, List.map_cons, List.flatten_append, List.flatten_cons, List.count_append]
  omega

theorem done_mem_set {l : List DispatchPc} {i : Nat} {q : DispatchPc} (hq : l[i]? = some q)
    (p : DispatchPc) (hq' : q ≠ .done) (hp : p ≠ .done) : .done ∈ l.set i p ↔ .done ∈ l := by
  obtain ⟨hl, hset⟩ := set_split hq p
  rw [hset]
  conv_rhs => rw [hl]
  simp [Ne.symm hq', Ne.symm hp]

theorem done_mem_set_done {l : List DispatchPc} {i : Nat} {q : DispatchPc} (hq : l[i]? = some q) :
    .done ∈ l.set i .done := by
  rw [(set_split hq .done).2]
  simp

/-! ## One move of each goroutine -/

variable {s s' : Pool}

theorem Inv.panic (h : s.Inv) (msg : String) : (s.panic msg).Inv :=
  ⟨h.fresh, h.sentNodup, h.pending, h.conserve, h.writeClosed, h.drained, h.logClosed, h.committerDone⟩

theorem writerSelect_inv (h : s.Inv) {b : Bool} (hs : s.writerSelect b = some s') : s'.Inv := by
  unfold writerSelect at hs
  split at hs
  · rename_i hloop
    split at hs
    · cases hs
    · cases hs
      have open_ : s.writeQueue.closed = false := by
        cases hc : s.writeQueue.closed
        · rfl
        · simp [h.writeClosed hc] at hloop
      exact ⟨fun _ => h.fresh (by simp [hloop]), h.sentNodup, fun _ _ he => by cases he; rfl, h.conserve,
        by simp [open_], h.drained, h.logClosed, h.committerDone⟩
  · cases hs

theorem writerSend_inv (h : s.Inv) (hs : s.writerSend = some s') : s'.Inv := by
  unfold writerSend at hs
  split at hs
  · rename_i x stopping hw
    have hx : x = s.tinyLog := h.pending x stopping hw
    have notDone : .done ∉ s.dispatchers := fun hd => by simp [h.writeClosed (h.drained hd).1] at hw
    split at hs
    · cases hs
      exact h.panic _
    · rename_i hopen
      split at hs
      · have fresh : x ∉ s.sent := fun hm => by have := h.fresh (by simp [hw]) x hm; omega
        have nodup : (s.sent ++ [x]).Nodup := List.nodup_append.mpr ⟨h.sentNodup, List.nodup_singleton x, by simpa using fresh⟩
        have conserve (y : Nat) : (s.sent ++ [x]).count y = s.committed.count y + s.dropped.count y +
            ((s.writeQueue.buf ++ [x]) ++ (s.dispatchers.map DispatchPc.held).flatten ++ s.logQueue.buf).count y := by
          have := h.conserve y
          simp only [inflight, List.count_append] at this ⊢
          omega
        split at hs <;> cases hs
        · exact ⟨fun hd => absurd rfl hd, nodup, by simp, conserve, fun _ => rfl, fun hd => absurd hd notDone,
            h.logClosed, h.committerDone⟩
        · refine ⟨fun _ y hy => ?_, nodup, by simp, conserve, fun hc => absurd hc hopen, fun hd => absurd hd notDone,
            h.logClosed, h.committerDone⟩
          rcases List.mem_append.mp hy with hy | hy
          · exact Nat.lt_succ_of_lt (h.fresh (by simp [hw]) y hy)
          · simp [List.mem_singleton.mp hy, hx]
      · cases hs
  · cases hs

theorem dispatchRecv_inv (h : s.Inv) {i : Nat} (hs : s.dispatchRecv i = some s') : s'.Inv := by
  unfold dispatchRecv at hs
  split at hs
  · rename_i hi
    split at hs
    · rename_i x rest hbuf
      cases hs
      have done_iff := done_mem_set hi (.holding x) nofun nofun
      refine ⟨h.fresh, h.sentNodup, h.pending, fun y => ?_, h.writeClosed, fun hd => ?_, ?_, h.committerDone⟩
      · have := h.conserve y
        have held := count_held_set hi (.holding x) y
        simp only [inflight, setDispatcher, hbuf, List.count_append, List.count_cons, DispatchPc.held,
          List.count_nil] at this held ⊢
        omega
      · simp [(h.drained (done_iff.mp hd)).2] at hbuf
      · exact h.logClosed.trans done_iff.symm
    · rename_i hbuf
      split at hs
      · cases hs
      · rename_i hclosed
        split at hs
        · cases hs
          exact h.panic _
        · rename_i hopen
          cases hs
          refine ⟨h.fresh, h.sentNodup, h.pending, fun y => ?_, h.writeClosed,
            fun _ => ⟨by simpa using hclosed, hbuf⟩, ⟨fun _ => done_mem_set_done hi, fun _ => rfl⟩, fun hc => ?_⟩
          · have := h.conserve y
            have held := count_held_set hi .done y
            simp only [inflight, setDispatcher, List.count_append, DispatchPc.held, List.count_nil] at this held ⊢
            omega
          · exact absurd (h.committerDone hc).1 hopen
  · cases hs

theorem dispatchPut_inv (h : s.Inv) {i : Nat} (hs : s.dispatchPut i = some s') : s'.Inv := by
  unfold dispatchPut at hs
  split at hs
  · rename_i x hi
    split at hs
    · cases hs
      exact h.panic _
    · rename_i hopen
      have committer (hc : s.committer = .done) : False := hopen (h.committerDone hc).1
      split at hs <;> cases hs
      · have done_iff := done_mem_set hi .recv nofun nofun
        refine ⟨h.fresh, h.sentNodup, h.pending, fun y => ?_, h.writeClosed, fun hd => h.drained (done_iff.mp hd),
          h.logClosed.trans done_iff.symm, fun hc => (committer hc).elim⟩
        have := h.conserve y
        have held := count_held_set hi .recv y
        simp only [inflight, setDispatcher, Chan.push, List.count_append, DispatchPc.held, List.count_nil,
          List.count_singleton'] at this held ⊢
        omega
      · have done_iff := done_mem_set hi .sleeping nofun nofun
        refine ⟨h.fresh, h.sentNodup, h.pending, fun y => ?_, h.writeClosed, fun hd => h.drained (done_iff.mp hd),
          h.logClosed.trans done_iff.symm, h.committerDone⟩
        have := h.conserve y
        have held := count_held_set hi .sleeping y
        simp only [inflight, setDispatcher, List.count_append, DispatchPc.held, List.count_nil,
          List.count_singleton'] at this held ⊢
        omega
  · cases hs

theorem dispatchWake_inv (h : s.Inv) {i : Nat} (hs : s.dispatchWake i = some s') : s'.Inv := by
  unfold dispatchWake at hs
  split at hs
  · rename_i hi
    cases hs
    have done_iff := done_mem_set hi .recv nofun nofun
    refine ⟨h.fresh, h.sentNodup, h.pending, fun y => ?_, h.writeClosed, fun hd => h.drained (done_iff.mp hd),
      h.logClosed.trans done_iff.symm, h.committerDone⟩
    have := h.conserve y
    have held := count_held_set hi .recv y
    simp only [inflight, setDispatcher, List.count_append, DispatchPc.held, List.count_nil] at this held ⊢
    omega
  · cases hs

/-- A log taken off `logQueue` and passed to `tinyCommit` moves from in flight to committed. -/
theorem Inv.commit (h : s.Inv) {x : Nat} {rest : List Nat} (hbuf : s.logQueue.buf = x :: rest)
    (running : s.committer ≠ .done) :
    { s with logQueue := { s.logQueue with buf := rest }, committed := s.committed ++ [x] }.Inv := by
  refine ⟨h.fresh, h.sentNodup, h.pending, fun y => ?_, h.writeClosed, h.drained, h.logClosed,
    fun hc => absurd hc running⟩
  have := h.conserve y
  simp only [inflight, hbuf, List.count_append, List.count_cons, List.count_nil, List.count_singleton'] at this ⊢
  omega

theorem commitRecv_inv (h : s.Inv) (hs : s.commitRecv = some s') : s'.Inv := by
  unfold commitRecv at hs
  split at hs
  · rename_i x rest hc hbuf
    cases hs
    exact h.commit hbuf (by simp [hc])
  · split at hs
    · cases hs
      exact h
    · cases hs
  · cases hs

theorem commitDrain_inv (h : s.Inv) (hs : s.commitDrain = some s') : s'.Inv := by
  unfold commitDrain at hs
  split at hs
  · rename_i x rest hc hbuf
    cases hs
    exact h.commit hbuf (by simp [hc])
  · rename_i hc hbuf
    split at hs
    · rename_i hclosed
      cases hs
      exact ⟨h.fresh, h.sentNodup, h.pending, h.conserve, h.writeClosed, h.drained, h.logClosed,
        fun _ => ⟨hclosed, hbuf⟩⟩
    · cases hs
  · cases hs

theorem commitStop_inv (h : s.Inv) (hs : s.commitStop = some s') : s'.Inv := by
  unfold commitStop at hs
  split at hs
  · split at hs <;> cases hs
    exact ⟨h.fresh, h.sentNodup, h.pending, h.conserve, h.writeClosed, h.drained, h.logClosed, by simp⟩
  · cases hs

theorem step_inv (h : s.Inv) {a : Action} (hs : s.step a = some s') : s'.Inv := by
  unfold step at hs
  split at hs
  · cases hs
  · cases a with
    | writerTick => exact writerSelect_inv h hs
    | writerStop => exact writerSelect_inv h hs
    | writerSend => exact writerSend_inv h hs
    | dispatchRecv i => exact dispatchRecv_inv h hs
    | dispatchPut i => exact dispatchPut_inv h hs
    | dispatchWake i => exact dispatchWake_inv h hs
    | commitRecv => exact commitRecv_inv h hs
    | commitStop => exact commitStop_inv h hs
    | commitDrain => exact commitDrain_inv h hs
    | close =>
      cases hs
      exact ⟨h.fresh, h.sentNodup, h.pending, h.conserve, h.writeClosed, h.drained, h.logClosed, h.committerDone⟩

/-- No move adds or removes a dispatcher. -/
theorem step_length {a : Action} (hs : s.step a = some s') : s'.dispatchers.length = s.dispatchers.length := by
  unfold step at hs
  split at hs
  · cases hs
  · cases a <;> dsimp only [writerSelect, writerSend, dispatchRecv, dispatchPut, dispatchWake, commitRecv,
      commitStop, commitDrain] at hs <;> (repeat' split at hs) <;> cases hs <;> simp [setDispatcher, panic]

/-- A move that panics is the writer's send on a closed `writeQueue`, or a dispatcher's
`close(p.logQueue)` or send on `logQueue` once it is closed. -/
theorem step_panic_cases {a : Action} (hs : s.step a = some s') (calm : s.panicked = none)
    (panicked : s'.panicked ≠ none) :
    (∃ x b, s.writer = .sending x b ∧ s.writeQueue.closed = true) ∨
      ∃ (i : Nat) (q : DispatchPc), s.dispatchers[i]? = some q ∧ q ≠ .done ∧ s.logQueue.closed = true := by
  unfold step at hs
  split at hs
  · cases hs
  · cases a <;> dsimp only [writerSelect, writerSend, dispatchRecv, dispatchPut, dispatchWake, commitRecv,
      commitStop, commitDrain] at hs <;> (repeat' split at hs) <;> cases hs <;>
      first
      | exact absurd calm panicked
      | exact .inl ⟨_, _, ‹_›, ‹_›⟩
      | exact .inr ⟨_, _, ‹_›, fun h => DispatchPc.noConfusion h, ‹_›⟩

/-- What every move keeps, every schedule keeps. -/
theorem run_preserves (P : Pool → Prop) (step_P : ∀ {s s' : Pool} {a : Action}, P s → s.step a = some s' → P s') :
    ∀ (acts : List Action) {s s' : Pool}, P s → s.run acts = some s' → P s'
  | [], _, _, h, hs => by cases hs; exact h
  | a :: acts, s, _, h, hs => by
    unfold run at hs
    cases hstep : s.step a with
    | none => simp [hstep] at hs
    | some t =>
      rw [hstep] at hs
      exact run_preserves P step_P acts (step_P h hstep) hs

end Pool

end UnitDB.Source.LogPool
