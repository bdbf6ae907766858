import UnitDB.Source.SyncHandle

/-!
# What the steps of a sync run change

Effects of the sync engine's steps, stated once per step and then carried through the
loops:

* the flush's fallible steps as Hoare triples (`Triple`), composed through `checkErr`: the
  writes and fsyncs change only the files, the writers' buffers, the block index and the
  call count (`Books` is what they keep), and a successful `DB.sync` leaves every record of
  the three files fsync'd;
* the in-memory steps (`mem.Get`, the appends, the trie and filter updates, the entry loop)
  leave the files, the counters, the marks and the ghost records alone (`Disk`);
* the run relation `Along`, kept by every step of `Sync`, flushes and aborts included: the
  `startSync` marks, the time id and the WAL signals stay put, a complete flush stays
  fsync'd (`Safe`), and every rollback recorded on the way puts the file sizes and the
  block index back to the marks.
-/

namespace UnitDB.Source.SyncHandle
open UnitDB.Source

/-! ## Durability and the rollback marks -/

/-- Every record of the file is covered by an fsync. -/
def File.Durable {α : Type} (f : File α) : Prop := ∀ r ∈ f.recs, r.durable = true

instance {α : Type} (f : File α) : Decidable f.Durable :=
  inferInstanceAs (Decidable (∀ r ∈ f.recs, r.durable = true))

theorem File.fsync_durable {α : Type} (f : File α) : f.fsync.Durable := by
  simp [File.Durable, File.fsync]

/-- The sizes and block index a rolling-back `abort` left. -/
def Snapshot.marks (snap : Snapshot) : Nat × Nat × Nat × Int :=
  (snap.dataSize, snap.indexSize, snap.windowSize, snap.blockIdx)

/-- What the flush's writes and fsyncs leave alone. -/
structure Books where
  count : Int
  syncComplete : Bool
  internalCount : Nat
  upperCount : Int
  marks : Nat × Nat × Nat × Int
  logSeq : UInt64
  signaled : List UInt64
  rollbacks : List Snapshot

/-- What the in-memory steps leave alone. -/
structure Disk where
  data : File Bytes
  index : File IndexEntry
  window : File WindowRecord
  syncComplete : Bool
  blockIdx : Int
  count : Int
  upperCount : Int
  marks : Nat × Nat × Nat × Int
  logSeq : UInt64
  signaled : List UInt64
  rollbacks : List Snapshot

namespace SyncState

/-- Every record of the data, index and window files is fsync'd. -/
def FilesDurable (s : SyncState) : Prop := s.data.Durable ∧ s.index.Durable ∧ s.window.Durable

/-- The sync engine's invariant: `syncComplete` is set only while every record written to
the three files is fsync'd. -/
def Safe (s : SyncState) : Prop := s.syncComplete = true → s.FilesDurable

instance (s : SyncState) : Decidable s.FilesDurable := inferInstanceAs (Decidable (_ ∧ _ ∧ _))

instance (s : SyncState) : Decidable s.Safe := inferInstanceAs (Decidable (_ → _))

/-- The offsets and block index `startSync` recorded for the rollback. -/
def marks (s : SyncState) : Nat × Nat × Nat × Int := (s.dataOff, s.blockOff, s.winOff, s.startBlockIdx)

def books (s : SyncState) : Books :=
  ⟨s.count, s.syncComplete, s.internalCount, s.upperCount, s.marks, s.logSeq, s.signaled, s.rollbacks⟩

def disk (s : SyncState) : Disk :=
  ⟨s.data, s.index, s.window, s.syncComplete, s.blockIdx, s.count, s.upperCount, s.marks, s.logSeq,
    s.signaled, s.rollbacks⟩

/-! ## Hoare triples for the flush's fallible steps -/

/-- Where a fallible step ended: in `ok` when it succeeded, in `err` when it failed. -/
def Ends (ok err : SyncState → Prop) : SyncState × Option Error → Prop
  | (t, none) => ok t
  | (t, some _) => err t

/-- From a state satisfying `pre`, the step `m` ends in `ok` or, failing, in `err`. -/
def Triple (pre : SyncState → Prop) (m : SyncState → SyncState × Option Error)
    (ok err : SyncState → Prop) : Prop :=
  ∀ s, pre s → Ends ok err (m s)

variable (env : Env)

theorem Triple.checkErr {pre mid post err : SyncState → Prop} {m k : SyncState → SyncState × Option Error}
    (first : Triple pre m mid err) (rest : Triple mid k post err) :
    Triple pre (fun s => checkErr (m s) k) post err := by
  intro s hs
  have h := first s hs
  dsimp only
  rcases hm : m s with ⟨t, _ | e⟩ <;> rw [hm] at h
  · exact rest t h
  · exact h

theorem Triple.attempt {pre ok err : SyncState → Prop} {c : Call} {f : SyncState → SyncState}
    (success : ∀ s, pre s → ok (f { s with calls := s.calls + 1 }))
    (failure : ∀ s, pre s → err { s with calls := s.calls + 1 }) :
    Triple pre (fun s => s.attempt env c f) ok err := by
  intro s hs
  dsimp only [SyncState.attempt, call]
  cases env.faults s.calls c
  · exact success s hs
  · exact failure s hs

/-- A triple whose two outcomes agree says what the step's state satisfies. -/
theorem Triple.fst {pre post : SyncState → Prop} {m : SyncState → SyncState × Option Error}
    (h : Triple pre m post post) {s : SyncState} (hs : pre s) : post (m s).1 := by
  have := h s hs
  revert this
  rcases m s with ⟨t, _ | e⟩ <;> exact id

/-- A call whose success changes nothing `π` sees keeps `π` either way. -/
theorem attempt_keeps {β : Type} (π : SyncState → β) (b : β) {c : Call} {f : SyncState → SyncState}
    (hcall : ∀ s, π { s with calls := s.calls + 1 } = π s) (hf : ∀ s, π (f s) = π s) :
    Triple (π · = b) (fun s => s.attempt env c f) (π · = b) (π · = b) :=
  Triple.attempt env (fun _ hs => ((hf _).trans (hcall _)).trans hs) (fun _ hs => (hcall _).trans hs)

/-- A call whose success changes only what `Disk` leaves out keeps the disk either way. -/
theorem attempt_disk (d : Disk) {c : Call} {f : SyncState → SyncState} (hf : ∀ s, (f s).disk = s.disk) :
    Triple (·.disk = d) (fun s => s.attempt env c f) (·.disk = d) (·.disk = d) :=
  attempt_keeps env disk d (fun _ => rfl) hf

/-- A call whose success changes only what `Books` leaves out keeps the books either way. -/
theorem attempt_books (b : Books) {c : Call} {f : SyncState → SyncState} (hf : ∀ s, (f s).books = s.books) :
    Triple (·.books = b) (fun s => s.attempt env c f) (·.books = b) (·.books = b) :=
  attempt_keeps env books b (fun _ => rfl) hf

/-- `DB.sync` keeps the books, and when it succeeds every record of the three files is
fsync'd. -/
theorem fsyncAll_triple (b : Books) :
    Triple (·.books = b) (·.fsyncAll env) (fun t => t.FilesDurable ∧ t.books = b) (·.books = b) := by
  have window : Triple (·.books = b) (fun s => s.attempt env .windowSync fun s => { s with window := s.window.fsync })
      (fun t => t.window.Durable ∧ t.books = b) (·.books = b) :=
    Triple.attempt env (fun _ hs => ⟨File.fsync_durable _, hs⟩) (fun _ hs => hs)
  have index : Triple (fun t => t.window.Durable ∧ t.books = b)
      (fun s => s.attempt env .indexSync fun s => { s with index := s.index.fsync })
      (fun t => t.index.Durable ∧ t.window.Durable ∧ t.books = b) (·.books = b) :=
    Triple.attempt env (fun _ hs => ⟨File.fsync_durable _, hs⟩) (fun _ hs => hs.2)
  have data : Triple (fun t => t.index.Durable ∧ t.window.Durable ∧ t.books = b)
      (fun s => s.attempt env .dataSync fun s => { s with data := s.data.fsync })
      (fun t => t.FilesDurable ∧ t.books = b) (·.books = b) :=
    Triple.attempt env (fun _ hs => ⟨⟨File.fsync_durable _, hs.1, hs.2.1⟩, hs.2.2⟩) (fun _ hs => hs.2.2)
  exact (attempt_books env b (by intro; rfl)).checkErr (window.checkErr (index.checkErr data))

/-- A flush's steps keep the books when they fail; when they succeed the three files are
fsync'd, `syncComplete` is set and the count has grown by `internal.count`. -/
theorem flushSteps_triple (b : Books) :
    Triple (·.books = b) (·.flushSteps env)
      (fun t => t.FilesDurable ∧ t.books = { b with count := b.count + b.internalCount, syncComplete := true })
      (·.books = b) := by
  have extend : Triple (·.books = b) (fun s =>
      let nBlocks := toInt32 ((s.upperSeq.toNat - 1) / env.entriesPerIndexBlock)
      if s.blockIdx < nBlocks then s.extendBlocks env (nBlocks - s.blockIdx) else (s, none))
      (·.books = b) (·.books = b) := by
    intro s hs
    dsimp only
    split
    · exact attempt_books env b (by intro; rfl) s hs
    · exact hs
  have complete : Triple (fun t => t.FilesDurable ∧ t.books = b)
      (fun s => ({ s with count := s.count + s.internalCount, syncComplete := true }, none))
      (fun t => t.FilesDurable ∧ t.books = { b with count := b.count + b.internalCount, syncComplete := true })
      (·.books = b) := by
    rintro s ⟨hd, rfl⟩
    exact ⟨hd, rfl⟩
  exact (attempt_books env b (by intro; rfl)).checkErr <| extend.checkErr <|
    (attempt_books env b (by intro; rfl)).checkErr <| (attempt_books env b (by intro; rfl)).checkErr <|
    (fsyncAll_triple env b).checkErr complete

/-! ## The in-memory steps -/

@[simp] theorem memGet_disk (s : SyncState) (h mseq : UInt64) : (s.memGet env h mseq).1.disk = s.disk := by
  dsimp only [memGet, call]
  cases env.faults s.calls (.memGet h mseq) <;> rfl

@[simp] theorem dataAppend_disk (s : SyncState) (data : Bytes) : (s.dataAppend env data).1.disk = s.disk := by
  dsimp only [dataAppend, call]
  cases env.faults s.calls .dataAppend <;> rfl

@[simp] theorem blockAppend_disk (s : SyncState) (e : IndexEntry) : (s.blockAppend env e).1.disk = s.disk := by
  dsimp only [blockAppend, call]
  split
  · rfl
  · cases env.faults s.calls (.blockAppend e.seq) <;> rfl

@[simp] theorem windowAppend_disk (s : SyncState) (h : UInt64) (topicOff : Nat) (entries : List WinEntry) :
    (s.windowAppend env h topicOff entries).1.disk = s.disk := by
  dsimp only [windowAppend, call]
  cases env.faults s.calls (.windowAppend h) <;> rfl

@[simp] theorem record_disk (s : SyncState) (we : WinEntry) (e : IndexEntry) : (s.record we e).disk = s.disk := rfl

@[simp] theorem reset_disk (s : SyncState) : s.reset.disk = s.disk := rfl

@[simp] theorem call_disk (s : SyncState) (c : Call) : (s.call env c).1.disk = s.disk := rfl

@[simp] theorem detach_disk (s : SyncState) (w : Window) : (s.detach w).disk = s.disk := rfl

@[simp] theorem freeTopic_disk (s : SyncState) (h : UInt64) (offsets : List (UInt64 × Nat)) :
    (s.freeTopic env h offsets).disk = s.disk := rfl

/-- Every loop of the callback keeps a relation its body keeps. -/
theorem loop_rel {α : Type} (R : SyncState → SyncState → Prop) (refl : ∀ s, R s s)
    (trans : ∀ {a b c}, R a b → R b c → R a c)
    {body : α → SyncState → Option Error → SyncState × Option Error × Flow}
    (step : ∀ x s err1, R s (body x s err1).1) (xs : List α) (s : SyncState) (err1 : Option Error) :
    R s (loop body xs s err1).1 := by
  induction xs generalizing s err1 with
  | nil => exact refl s
  | cons x xs ih =>
    have hx := step x s err1
    unfold loop
    rcases hb : body x s err1 with ⟨t, e, _ | _ | _ | _⟩ <;> rw [hb] at hx
    · exact trans hx (ih t e)
    all_goals exact hx

/-- A pass over a window entry touches only the memtable read, the writers' buffers, the
filter and the internal counters. -/
theorem syncEntry_disk (h : UInt64) (we : WinEntry) (s : SyncState) (err1 : Option Error) :
    (syncEntry env h we s err1).1.disk = s.disk := by
  unfold syncEntry
  dsimp only
  repeat' split
  all_goals simp only [record_disk, blockAppend_disk, dataAppend_disk, memGet_disk]

theorem syncEntries_disk (h : UInt64) (es : List WinEntry) (s : SyncState) (err1 : Option Error) :
    (loop (syncEntry env h) es s err1).1.disk = s.disk :=
  loop_rel (fun s t => t.disk = s.disk) (fun _ => rfl) (fun h₁ h₂ => h₂.trans h₁) (syncEntry_disk env h) es s err1

/-! ## Rollback and abort -/

/-- `abort`'s rollback truncates the three files to the marks, puts the block index back,
takes `upperCount` off the count and records the result; its failing calls change none of
that. -/
theorem rollBack_disk (s : SyncState) :
    (s.rollBack env).1.disk =
      { s.disk with data := s.data.truncate s.dataOff, index := s.index.truncate s.blockOff,
                    window := s.window.truncate s.winOff, blockIdx := s.startBlockIdx,
                    count := s.count - s.upperCount,
                    rollbacks := s.rollbacks ++
                      [⟨s.dataOff, s.blockOff, s.winOff, s.startBlockIdx, s.count - s.upperCount⟩] } := by
  exact ((attempt_disk env _ (by intro; rfl)).checkErr <| (attempt_disk env _ (by intro; rfl)).checkErr <|
    (attempt_disk env _ (by intro; rfl)).checkErr (attempt_disk env _ (by intro; rfl))).fst rfl

/-- What every step of a `Sync` run keeps: the `startSync` marks, the time id, the WAL
signals and `Safe`; and every rollback it records puts the sizes and the block index back
to the marks. -/
structure Along (s s' : SyncState) : Prop where
  marks : s'.marks = s.marks
  logSeq : s'.logSeq = s.logSeq
  signaled : s'.signaled = s.signaled
  safe : s.Safe → s'.Safe
  rollbacks : ∃ more, s'.rollbacks = s.rollbacks ++ more ∧ ∀ snap ∈ more, snap.marks = s.marks

theorem Along.refl (s : SyncState) : Along s s := ⟨rfl, rfl, rfl, id, [], by simp, by simp⟩

theorem Along.trans {a b c : SyncState} (hab : Along a b) (hbc : Along b c) : Along a c := by
  obtain ⟨m₁, e₁, h₁⟩ := hab.rollbacks
  obtain ⟨m₂, e₂, h₂⟩ := hbc.rollbacks
  refine ⟨hbc.marks.trans hab.marks, hbc.logSeq.trans hab.logSeq, hbc.signaled.trans hab.signaled,
    hbc.safe ∘ hab.safe, m₁ ++ m₂, by rw [e₂, e₁, List.append_assoc], ?_⟩
  simp only [List.mem_append]
  rintro snap (h | h)
  · exact h₁ snap h
  · exact (h₂ snap h).trans hab.marks

theorem Along.of_disk {s s' : SyncState} (h : s'.disk = s.disk) : Along s s' := by
  simp only [disk, Disk.mk.injEq] at h
  obtain ⟨hd, hi, hw, hc, -, -, -, hm, hl, hsig, hr⟩ := h
  refine ⟨hm, hl, hsig, ?_, [], by simp [hr], by simp⟩
  simp only [Safe, FilesDurable, hd, hi, hw, hc, imp_self]

/-- The marks, the time id and the signals, with the rollbacks unchanged, and `s'` safe. -/
theorem Along.of_safe {s s' : SyncState} (hm : s'.marks = s.marks) (hl : s'.logSeq = s.logSeq)
    (hsig : s'.signaled = s.signaled) (hr : s'.rollbacks = s.rollbacks) (safe : s'.Safe) : Along s s' :=
  ⟨hm, hl, hsig, fun _ => safe, [], by simp [hr], by simp⟩

theorem abort_along (s : SyncState) : Along s (s.abort env) := by
  unfold abort
  split
  · exact .of_disk rfl
  · rename_i incomplete
    have h := rollBack_disk env s
    simp only [disk, Disk.mk.injEq] at h
    obtain ⟨-, -, -, hc, -, -, -, hm, hl, hsig, hr⟩ := h
    refine ⟨hm, hl, hsig, fun _ hc' => absurd (hc.symm.trans hc') incomplete,
      [⟨s.dataOff, s.blockOff, s.winOff, s.startBlockIdx, s.count - s.upperCount⟩], hr, ?_⟩
    simp [Snapshot.marks, marks]

/-! ## The flush -/

/-- A flush that runs starts from `syncComplete = false`: on success the files are fsync'd
and `abort` only resets; on failure `abort` rolls back. -/
theorem sync_along (s : SyncState) (last : Bool) : Along s (s.sync env last).1 := by
  unfold sync
  split
  · split
    · exact .refl s
    · have h := flushSteps_triple env { s with syncComplete := false }.books _ rfl
      dsimp only at h ⊢
      generalize { s with syncComplete := false }.flushSteps env = r at h ⊢
      rcases r with ⟨t, _ | e⟩
      · obtain ⟨durable, hb⟩ := h
        simp only [books, Books.mk.injEq] at hb
        obtain ⟨-, hc, -, -, hm, hl, hsig, hr⟩ := hb
        simp only [abort, hc, if_true]
        exact .of_safe hm hl hsig hr fun _ => durable
      · simp only [Ends, books, Books.mk.injEq] at h
        obtain ⟨-, hc, -, -, hm, hl, hsig, hr⟩ := h
        have along : Along s t := .of_safe hm hl hsig hr fun h => absurd (h.symm.trans hc) Bool.noConfusion
        exact along.trans (abort_along env t)
  · exact .refl s

/-! ## The loops of `Sync` -/

/-- A pass over a topic is quiet up to its intermediate flush, which keeps `Along`. -/
theorem syncTopic_along (topic : UInt64 × List WinEntry) (s : SyncState) (err1 : Option Error) :
    Along s (syncTopic env topic s err1).1 := by
  have entries := syncEntries_disk env topic.1 topic.2 s err1
  unfold syncTopic
  dsimp only
  repeat' split
  all_goals first
    | exact (Along.of_disk (by simp only [freeTopic_disk, windowAppend_disk, entries])).trans
        (sync_along env _ false)
    | exact .of_disk (by simp only [freeTopic_disk, windowAppend_disk, entries])

theorem foreachTimeWindow_along (ws : List Window) (s : SyncState) (err1 : Option Error) :
    Along s (foreachTimeWindow (syncWindow env) ws s err1).1 := by
  unfold foreachTimeWindow syncWindow
  exact loop_rel Along Along.refl Along.trans (fun w t err1 => (Along.of_disk (detach_disk t w)).trans
    (loop_rel Along Along.refl Along.trans (syncTopic_along env) w _ err1)) ws s err1

/-- The end of `Sync` signals the WAL exactly when the last flush left `syncComplete` set. -/
theorem lastFlush_cases (s : SyncState) :
    let t := (s.sync env true).1
    (s.lastFlush env).1 = t ∨
      (t.syncComplete = true ∧ (s.lastFlush env).1 = { t with signaled := t.signaled ++ [t.logSeq] }) := by
  unfold lastFlush
  dsimp only
  split
  · exact .inl rfl
  · split
    · exact .inr ⟨‹_›, rfl⟩
    · exact .inl rfl

/-- `Sync` ends in a state its drain reached along the run (after an error, its abort and
recovery too), or in that state's last flush. -/
theorem Sync_cases (s : SyncState) :
    ∃ t, Along s t ∧ ((s.Sync env).1 = t ∨ (s.Sync env).1 = (t.lastFlush env).1) := by
  have drained := foreachTimeWindow_along env s.windows s none
  unfold Sync
  dsimp only
  split
  · exact ⟨_, drained, .inl rfl⟩
  · have incomplete : Along (foreachTimeWindow (syncWindow env) s.windows s none).1
        { (foreachTimeWindow (syncWindow env) s.windows s none).1 with syncComplete := false } :=
      .of_safe rfl rfl rfl rfl fun h => Bool.noConfusion h
    have recovered := drained.trans (incomplete.trans ((abort_along env _).trans (.of_disk (call_disk env _ .recovery))))
    split
    · exact ⟨_, recovered, .inl rfl⟩
    · exact ⟨_, recovered, .inr rfl⟩
  · exact ⟨_, drained, .inr rfl⟩

end SyncState

end UnitDB.Source.SyncHandle
