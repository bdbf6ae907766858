import Mathlib.Data.List.Nodup
import UnitDB.Source.Basic

/-!
# Write batch: frames, pending writes and the memtable write

`batch.go`: `PutEntry`, `DeleteEntry`, `Reset`, `append`, `uniq`, `writeInternal` and
`Write`, as functions from the batch record to the batch record and the returned error.
A Go method mutates its receiver before it can fail, so a failing call still yields the
batch it leaves behind.

The collaborators that are not part of the sources (the topic parser and the `message`
package, `db.setEntry`, `db.packEntry`, `hash.WithSalt`, the buffer pool's allocator and
the entry decoder) are fields of `Collaborators`. `Write` reaches the database through
an ordered log of the operations it applies (`DbOp`: memtable `Set`, trie `add`,
time-window `add`, `db.delete`, and the hand-off to a batch group); whether a fallible
operation fails is read from `Store`, and may depend on every operation applied before.
Offsets and sizes are naturals: they are sums of frame lengths, far below `2^63`.
`Commit`, `Abort` and the managed/grouped bookkeeping other than `grouped` are not
modelled.
-/

namespace UnitDB.Source.WriteBatch
open UnitDB.Source

/-- The fields of `BatchOptions` the batch reads. -/
structure BatchOptions where
  contract : UInt64
  encryption : Bool
  allowDuplicates : Bool
  immutable : Bool
  deriving DecidableEq, Repr

/-- `batchIndex`: where a frame starts, its dedup key, and whether it is a tombstone. -/
structure BatchIndex where
  delFlag : Bool
  key : UInt32
  offset : Nat
  deriving DecidableEq, Repr, Inhabited

/-- `Entry`, with the internal fields `PutEntry`, `DeleteEntry` and `db.setEntry` fill in
before `db.packEntry` reads them. -/
structure Entry where
  id : Bytes
  topic : Bytes
  payload : Bytes
  contract : UInt64
  topicHash : UInt64
  topicData : Bytes
  topicSize : UInt16
  encryption : Bool
  msgId : Bytes
  seq : UInt64
  val : Bytes
  expiresAt : UInt32
  deriving DecidableEq, Repr

/-- The parts of a `message.Topic` that `Write` reads back from `b.topics`. -/
structure StoredTopic where
  parts : List Part
  depth : UInt8
  deriving DecidableEq, Repr

/-- `Batch`: the buffer of frames, its size, the per-batch topic map and the index. -/
structure Batch where
  opts : BatchOptions
  grouped : Bool
  entryCount : Nat
  buffer : Bytes
  size : Nat
  topics : List (UInt64 × StoredTopic)
  index : List BatchIndex
  pendingWrites : List BatchIndex
  deriving DecidableEq, Repr

/-- The collaborators of `PutEntry` and `DeleteEntry` outside the sources. `Topic` is
the parsed `message.Topic`. -/
structure Collaborators (Topic : Type) where
  maxTopicLength : Nat
  maxValueLength : Nat
  masterContract : UInt64
  /-- `db.parseTopic(contract, topic)`: the topic and its ttl. -/
  parseTopic : UInt64 → Bytes → Except Error (Topic × Int)
  addContract : Topic → UInt64 → Topic
  getHash : Topic → UInt64 → UInt64
  marshal : Topic → Bytes
  getHashCode : Topic → UInt32
  /-- `t.Unmarshal(data)` into a fresh `message.Topic`. -/
  unmarshal : Bytes → StoredTopic
  /-- `db.setEntry(e, ttl)`: fills in the message id, seq, value and expiry. -/
  setEntry : Entry → Int → Except Error Entry
  /-- `message.ID(e.ID)` followed by `SetContract(contract)`. -/
  idWithContract : Bytes → UInt64 → Bytes
  /-- `id.Sequence()`. -/
  idSequence : Bytes → UInt64
  packEntry : Entry → Except Error Bytes
  /-- `hash.WithSalt`. -/
  withSalt : Bytes → UInt32 → UInt32
  /-- Whether the pool buffer's allocator grants `n` octets to a buffer of length `len`. -/
  allocates : Nat → Nat → Bool
  allocError : Error

section Assemble
variable {Topic : Type} (c : Collaborators Topic)

/-- `Buffer.Write`: the allocator grants the octets and they are appended, or it refuses. -/
def Collaborators.bufferWrite (buf p : Bytes) : Except Error Bytes :=
  if c.allocates buf.length p.length then .ok (buf ++ p) else .error c.allocError

/-- The frame `PutEntry` and `DeleteEntry` write for a packed entry `d`: the 4-byte
little-endian length `len(d) + 4`, then `d`. -/
def frame (d : Bytes) : Bytes := putUint32 (d.length + 4) ++ d

/-- The common tail of `PutEntry` and `DeleteEntry` (batch.go:117-135, 173-191): pack the
entry, write the length word and the packed entry, then record the index entry. -/
def Batch.appendFrame (b : Batch) (e : Entry) (delFlag : Bool) (key : UInt32) :
    Batch × Option Error :=
  match c.packEntry e with
  | .error err => (b, some err)
  | .ok data =>
    match c.bufferWrite b.buffer (putUint32 (data.length + 4)) with
    | .error err => (b, some err)
    | .ok buf =>
      match c.bufferWrite buf data with
      | .error err => ({ b with buffer := buf }, some err)
      | .ok buf =>
        ({ b with buffer := buf, index := b.index ++ [⟨delFlag, key, b.size⟩],
                  size := b.size + (data.length + 4), entryCount := b.entryCount + 1 }, none)

/-- `PutEntry` up to `packEntry` (batch.go:81-116): the size checks, the topic parse,
`setEntry`, the dedup key, and the batch's topic map, which records a topic seen for the
first time and then packs the topic with the entry. -/
def Batch.preparePut (b : Batch) (e : Entry) : Except Error (Batch × Entry × UInt32) :=
  if e.topic.length = 0 then .error .topicEmpty
  else if c.maxTopicLength < e.topic.length then .error .topicTooLarge
  else if e.payload.length = 0 then .error .valueEmpty
  else if c.maxValueLength < e.payload.length then .error .valueTooLarge
  else
    let contract := if e.contract = 0 then c.masterContract else e.contract
    match c.parseTopic contract e.topic with
    | .error err => .error err
    | .ok (parsed, ttl) =>
      let topic := c.addContract parsed contract
      let e := { e with contract, topicHash := c.getHash topic contract,
                        topicData := c.marshal topic, encryption := b.opts.encryption }
      match c.setEntry e ttl with
      | .error err => .error err
      | .ok e =>
        let key := if b.opts.allowDuplicates then 0 else c.withSalt e.val (c.getHashCode topic)
        match b.topics.lookup e.topicHash with
        | some _ => .ok (b, e, key)
        | none => .ok ({ b with topics := (e.topicHash, c.unmarshal e.topicData) :: b.topics },
                       { e with topicSize := e.topicData.length.toUInt16 }, key)

/-- `PutEntry` (batch.go:80-137). -/
def Batch.putEntry (b : Batch) (e : Entry) : Batch × Option Error :=
  match b.preparePut c e with
  | .error err => (b, some err)
  | .ok (b', e', key) => b'.appendFrame c e' false key

/-- `DeleteEntry` up to `packEntry` (batch.go:150-172). The topic is parsed with the
caller's contract and only then is the contract defaulted; the dedup key is the topic's
hash code. -/
def Batch.prepareDelete (b : Batch) (e : Entry) : Except Error (Entry × UInt32) :=
  if b.opts.immutable then .error .immutable
  else if e.id.length = 0 then .error .msgIdEmpty
  else if e.topic.length = 0 then .error .topicEmpty
  else if c.maxTopicLength < e.topic.length then .error .topicTooLarge
  else
    match c.parseTopic e.contract e.topic with
    | .error err => .error err
    | .ok (parsed, _) =>
      let contract := if e.contract = 0 then c.masterContract else e.contract
      let topic := c.addContract parsed contract
      let msgId := c.idWithContract e.id contract
      .ok ({ e with contract, msgId, seq := c.idSequence msgId }, c.getHashCode topic)

/-- `DeleteEntry` (batch.go:149-192). -/
def Batch.deleteEntry (b : Batch) (e : Entry) : Batch × Option Error :=
  match b.prepareDelete c e with
  | .error err => (b, some err)
  | .ok (e', key) => b.appendFrame c e' true key

/-- `append` (batch.go:318-329): merge `new` behind `b`, shifting its offsets by `b.size`.
It tests `new.Len()`, the number of pending writes, and ignores the buffer's error. -/
def Batch.append (b new : Batch) : Batch :=
  if new.pendingWrites.length = 0 then b
  else
    let b' := { b with index := b.index ++ new.index.map (fun i => { i with offset := i.offset + b.size }),
                       size := b.size + new.size }
    match c.bufferWrite b.buffer new.buffer with
    | .ok buf => { b' with buffer := buf }
    | .error _ => b'

end Assemble

/-- `Reset` (batch.go:285-291). `b.buffer.Reset()` is commented out in the source, so the
buffer keeps its octets. -/
def Batch.reset (b : Batch) : Batch :=
  { b with entryCount := 0, size := 0, index := [], pendingWrites := [] }

/-- The first loop of `uniq`: walking `index` from the end, a key seen for the first time
is recorded with its position and the number of keys recorded before it. -/
def uniqueSet (index : List BatchIndex) : Nat → List (UInt32 × Nat × Nat) → List (UInt32 × Nat × Nat)
  | 0, set => set
  | idx + 1, set =>
    let key := (index.getD idx default).key
    if (set.lookup key).isSome then uniqueSet index idx set
    else uniqueSet index idx (set ++ [(key, idx, set.length)])

/-- The second loop of `uniq`: each recorded entry, visited in the map's order `order`, is
stored at position `len(uniqueSet) - newidx - 1` of a slice of `len(uniqueSet)` entries. -/
def fillPending (index : List BatchIndex) (set order : List (UInt32 × Nat × Nat)) : List BatchIndex :=
  order.foldl (fun pw r => pw.set (set.length - r.2.2 - 1) (index.getD r.2.1 default))
    (List.replicate set.length default)

/-- `uniq` (batch.go:293-316). Go visits the map in any order; the model visits it in the order
the entries were recorded, and `fillPending_perm` shows that every order gives the same slice. -/
def Batch.uniq (b : Batch) : Batch :=
  if b.opts.allowDuplicates then { b with pendingWrites := b.index }
  else
    let set := uniqueSet b.index b.index.length []
    { b with pendingWrites := fillPending b.index set set }

/-! ### What `uniq` computes -/

/-- The entries of `l` whose key is neither in `seen` nor on an earlier entry, in order. -/
def keepFirst : List UInt32 → List BatchIndex → List BatchIndex
  | _, [] => []
  | seen, x :: xs => if x.key ∈ seen then keepFirst seen xs else x :: keepFirst (seen ++ [x.key]) xs

theorem lookup_isSome_iff_mem (set : List (UInt32 × Nat × Nat)) (k : UInt32) :
    (set.lookup k).isSome ↔ k ∈ set.map (·.1) := by
  rw [List.lookup_isSome_iff, List.mem_map]
  exact ⟨fun ⟨p, hp, e⟩ => ⟨p, hp, (beq_iff_eq.mp e).symm⟩, fun ⟨p, hp, e⟩ => ⟨p, hp, beq_iff_eq.mpr e.symm⟩⟩

theorem take_succ_reverse {index : List BatchIndex} {idx : Nat} (h : idx < index.length) :
    (index.take (idx + 1)).reverse = index.getD idx default :: (index.take idx).reverse := by
  rw [List.take_succ, List.getElem?_eq_getElem h, List.getD_eq_getElem?_getD, List.getElem?_eq_getElem h,
    Option.getD_some, Option.toList_some, List.reverse_append, List.reverse_singleton, List.singleton_append]

/-- The first loop of `uniq`, walking `index` down from `n`, records the entries of
`keepFirst` over the reversed prefix, after the keys already recorded. -/
theorem uniqueSet_entries (index : List BatchIndex) : ∀ n, n ≤ index.length → ∀ set,
    (uniqueSet index n set).map (fun r => index.getD r.2.1 default) =
      set.map (fun r => index.getD r.2.1 default) ++ keepFirst (set.map (·.1)) (index.take n).reverse
  | 0, _, set => by simp [uniqueSet, keepFirst]
  | idx + 1, h, set => by
    rw [take_succ_reverse (by omega), keepFirst, uniqueSet]
    by_cases seen : (index.getD idx default).key ∈ set.map (·.1)
    · rw [if_pos ((lookup_isSome_iff_mem _ _).mpr seen), if_pos seen]
      exact uniqueSet_entries index idx (by omega) set
    · rw [if_neg (by rwa [lookup_isSome_iff_mem]), if_neg seen, uniqueSet_entries index idx (by omega)]
      simp

/-- The first loop numbers the entries it records 0, 1, 2, ... -/
theorem uniqueSet_newidx (index : List BatchIndex) : ∀ n set, set.map (·.2.2) = List.range set.length →
    (uniqueSet index n set).map (·.2.2) = List.range (uniqueSet index n set).length
  | 0, _, h => h
  | idx + 1, set, h => by
    unfold uniqueSet
    dsimp only
    split
    · exact uniqueSet_newidx index idx set h
    · exact uniqueSet_newidx index idx _ (by simp [List.range_succ, h])

theorem set_replicate_last {α : Type} (n : Nat) (d x : α) (R : List α) :
    (List.replicate (n + 1) d ++ R).set n x = List.replicate n d ++ x :: R := by
  rw [List.replicate_succ', List.append_assoc, List.set_append_right _ _ (by simp)]
  simp

/-- The second loop fills the slice from the end: entry `newidx = t` lands `t + 1` places from
the end. -/
theorem foldl_fill {α : Type} (g : α → BatchIndex) (M : Nat) : ∀ (l : List α) (key : α → Nat) (t : Nat) (R : List BatchIndex),
    l.map key = List.range' t l.length → t + l.length ≤ M →
    l.foldl (fun pw r => pw.set (M - key r - 1) (g r)) (List.replicate (M - t) default ++ R) =
      List.replicate (M - t - l.length) default ++ (l.map g).reverse ++ R
  | [], _, _, _, _, _ => by simp
  | r :: l, key, t, R, hk, hM => by
    simp only [List.map_cons, List.length_cons, List.range'_succ, List.cons.injEq] at hk hM
    have step : (List.replicate (M - t) default ++ R).set (M - key r - 1) (g r) =
        List.replicate (M - (t + 1)) default ++ (g r :: R) := by
      rw [hk.1, show M - t - 1 = M - (t + 1) by omega, show M - t = M - (t + 1) + 1 by omega, set_replicate_last]
    rw [List.foldl_cons, step, foldl_fill g M l key (t + 1) _ hk.2 (by omega)]
    simp only [List.length_cons, List.map_cons, List.reverse_cons, List.append_assoc, List.singleton_append]
    congr 2; omega

/-- Filled in the order it was recorded, the slice is the recorded entries, last first. -/
theorem fillPending_self (index : List BatchIndex) (set : List (UInt32 × Nat × Nat))
    (h : set.map (·.2.2) = List.range set.length) :
    fillPending index set set = (set.map fun r => index.getD r.2.1 default).reverse := by
  have := foldl_fill (fun r => index.getD r.2.1 default) set.length set (·.2.2) 0 []
    (by rw [h, List.range_eq_range']) (by omega)
  simpa [fillPending] using this

/-- Every order of the map's iteration fills the same slice: each position is written once. -/
theorem fillPending_perm (index : List BatchIndex) {set order : List (UInt32 × Nat × Nat)}
    (h : set.map (·.2.2) = List.range set.length) (p : order.Perm set) :
    fillPending index set order = fillPending index set set := by
  unfold fillPending
  refine p.foldl_eq' (fun x hx y hy z => ?_) _
  have bound : ∀ r ∈ set, r.2.2 < set.length := fun r hr => by
    simpa [h] using List.mem_map_of_mem (·.2.2) hr
  by_cases same : x = y
  · rw [same]
  · have ne : x.2.2 ≠ y.2.2 := fun e => same (List.inj_on_of_nodup_map (h ▸ List.nodup_range _)
      (p.subset hx) (p.subset hy) e)
    have hxs := bound x (p.subset hx)
    have hys := bound y (p.subset hy)
    exact List.set_comm _ _ _ (by omega)

/-- The header fields `writeInternal` reads after `e.UnmarshalBinary`. -/
structure EntryHeader where
  seq : UInt64
  topicHash : UInt64
  expiresAt : UInt32
  deriving DecidableEq, Repr

/-- The decoding collaborators of `writeInternal`: `entrySize` and `entry.UnmarshalBinary`. -/
structure Decoder where
  entrySize : Nat
  unmarshal : Bytes → Except Error EntryHeader

/-- The slices `writeInternal` takes for one pending write (batch.go:205-209): the length
word, the entry header and the data, then the decoded header. `none` is a slice panic. -/
def Decoder.decodeFrame (d : Decoder) (buf : Bytes) (index : BatchIndex) :
    Option (Except Error (EntryHeader × Bytes)) :=
  match slice buf index.offset (index.offset + 4) with
  | none => none
  | some word =>
    match slice buf (index.offset + 4) (index.offset + d.entrySize + 4),
          slice buf (index.offset + 4) (index.offset + readUint32 word) with
    | some entryData, some data => some ((d.unmarshal entryData).map fun h => (h, data))
    | _, _ => none

section Internal
variable {σ : Type} (d : Decoder) (filter : UInt64 → Bool) (delete : σ → UInt64 → UInt64 → σ)
  (fn : Nat → UInt64 → UInt64 → UInt32 → Bytes → σ → σ × Option Error) (buf : Bytes)

/-- The loop of `writeInternal` from the pending write numbered `i` on. A tombstone whose
seq is absent from the filter returns `nil` at once (batch.go:212-214). -/
def writeLoop : Nat → List BatchIndex → σ → σ × Outcome
  | _, [], s => (s, .ok)
  | i, index :: rest, s =>
    match d.decodeFrame buf index with
    | none => (s, .panic)
    | some (.error err) => (s, .error err)
    | some (.ok (e, data)) =>
      if index.delFlag && e.seq != 0 then
        if !filter e.seq then (s, .ok)
        else writeLoop (i + 1) rest (delete s e.topicHash e.seq)
      else
        match fn i e.topicHash e.seq e.expiresAt data s with
        | (s, some err) => (s, .error err)
        | (s, none) => writeLoop (i + 1) rest s

/-- `writeInternal` (batch.go:194-225): `db.ok()`, then the loop over `pendingWrites`. -/
def writeInternal (dbOk : Option Error) (pending : List BatchIndex) (s : σ) : σ × Outcome :=
  match dbOk with
  | some err => (s, .error err)
  | none => writeLoop d filter delete fn buf 0 pending s

end Internal

/-- The database operations `Write` applies, in the order it applies them. -/
inductive DbOp where
  | memSet (blockId memseq : UInt64) (data : Bytes)
  | trieAdd (topicHash : UInt64) (parts : List Part) (depth : UInt8)
  | windowAdd (topicHash seq : UInt64) (expiresAt : UInt32)
  | delete (topicHash seq : UInt64)
  /-- `b.db.batchQueue <- b`: the batch is handed to its batch group. -/
  | enqueue (pending : List BatchIndex)
  deriving DecidableEq, Repr

/-- The database state `Write` reads: `db.ok()`, the presence filter, the cache id,
`startBlockIndex` (converted to `uint64`), and when `mem.Set` and `timeWindow.add` fail,
as functions of the operations applied so far. -/
structure Store where
  dbOk : Option Error
  filter : UInt64 → Bool
  cacheId : UInt64
  startBlockIndex : UInt64 → UInt64
  memSetFails : List DbOp → UInt64 → UInt64 → Bytes → Option Error
  windowAddFails : List DbOp → UInt64 → UInt64 → UInt32 → Option Error

/-- The callback `Write` passes to `writeInternal` (batch.go:240-252). -/
def Batch.writeEntry (st : Store) (b : Batch) (_ : Nat) (topicHash seq : UInt64)
    (expiresAt : UInt32) (data : Bytes) (log : List DbOp) : List DbOp × Option Error :=
  let blockId := st.startBlockIndex seq
  let memseq := st.cacheId ^^^ seq
  match st.memSetFails log blockId memseq data with
  | some err => (log, some err)
  | none =>
    let log := log ++ [.memSet blockId memseq data]
    match b.topics.lookup topicHash with
    | none => (log, some .topicEmpty)
    | some t =>
      let log := log ++ [.trieAdd topicHash t.parts t.depth]
      match st.windowAddFails log topicHash seq expiresAt with
      | some err => (log, some err)
      | none => (log ++ [.windowAdd topicHash seq expiresAt], none)

/-- `Write` (batch.go:228-257): `uniq`, then either the hand-off to the batch group or
`writeInternal` with the memtable callback. -/
def Batch.write (d : Decoder) (st : Store) (b : Batch) (log : List DbOp) :
    Batch × List DbOp × Outcome :=
  let b := b.uniq
  if b.grouped then (b, log ++ [.enqueue b.pendingWrites], .ok)
  else
    let r := writeInternal d st.filter (fun log h s => log ++ [.delete h s]) (b.writeEntry st)
      b.buffer st.dbOk b.pendingWrites log
    (b, r.1, r.2)


/-! ## What one call does -/

section Effects
variable {Topic : Type} (c : Collaborators Topic)

/-- A successful frame append writes exactly the frame of the packed entry and indexes it
at the old `size`. -/
theorem appendFrame_ok {b : Batch} {e : Entry} {delFlag : Bool} {key : UInt32}
    (h : (b.appendFrame c e delFlag key).2 = none) :
    ∃ data, c.packEntry e = .ok data ∧
      (b.appendFrame c e delFlag key).1 =
        { b with buffer := b.buffer ++ frame data, index := b.index ++ [⟨delFlag, key, b.size⟩],
                 size := b.size + (frame data).length, entryCount := b.entryCount + 1 } := by
  unfold Batch.appendFrame at h ⊢
  rcases hp : c.packEntry e with err | data
  · simp [hp] at h
  · simp only [hp, Collaborators.bufferWrite] at h ⊢
    by_cases h1 : c.allocates b.buffer.length 4 <;>
      by_cases h2 : c.allocates (b.buffer.length + 4) data.length <;>
      simp_all [frame, Nat.add_comm]

/-- A check that fails with an error lets only its `else` branch succeed. -/
theorem ok_of_ite_error {α : Type} {p : Prop} [Decidable p] {err : Error} {x : Except Error α} {r : α}
    (h : (if p then .error err else x) = .ok r) : x = .ok r := by
  split at h
  · cases h
  · exact h

/-- `preparePut` returns the batch it was given, or that batch with one topic recorded in front. -/
theorem preparePut_cases {b b' : Batch} {e e' : Entry} {key : UInt32}
    (h : b.preparePut c e = .ok (b', e', key)) : b' = b ∨ ∃ t, b' = { b with topics := t :: b.topics } := by
  unfold Batch.preparePut at h
  replace h := ok_of_ite_error (ok_of_ite_error (ok_of_ite_error (ok_of_ite_error h)))
  dsimp only at h
  iterate 2 (split at h; · cases h)
  split at h <;> cases h
  · exact .inl rfl
  · exact .inr ⟨_, rfl⟩

/-- `preparePut` changes the batch's topic map only. -/
theorem preparePut_frame {b b' : Batch} {e e' : Entry} {key : UInt32}
    (h : b.preparePut c e = .ok (b', e', key)) :
    b' = { b with topics := b'.topics } := by
  rcases preparePut_cases c h with rfl | ⟨t, rfl⟩ <;> rfl

/-- `preparePut` records at most one topic, in front of the others. -/
theorem preparePut_topics {b b' : Batch} {e e' : Entry} {key : UInt32}
    (h : b.preparePut c e = .ok (b', e', key)) :
    b'.topics = b.topics ∨ ∃ t, b'.topics = t :: b.topics := by
  rcases preparePut_cases c h with rfl | ⟨t, rfl⟩
  · exact .inl rfl
  · exact .inr ⟨t, rfl⟩

/-- A failing frame append has written nothing, or only the length word. -/
theorem appendFrame_error {b : Batch} {e : Entry} {delFlag : Bool} {key : UInt32} {err : Error}
    (h : (b.appendFrame c e delFlag key).2 = some err) :
    (b.appendFrame c e delFlag key).1 = b ∨
      ∃ n, (b.appendFrame c e delFlag key).1 = { b with buffer := b.buffer ++ putUint32 n } := by
  unfold Batch.appendFrame at h ⊢
  rcases hp : c.packEntry e with _ | data
  · exact .inl rfl
  · simp only [hp, Collaborators.bufferWrite] at h ⊢
    by_cases h1 : c.allocates b.buffer.length 4 <;>
      by_cases h2 : c.allocates (b.buffer.length + 4) data.length <;>
      simp_all [putUint32_length]

/-- Appending a frame leaves the topic map alone. -/
theorem appendFrame_topics (b : Batch) (e : Entry) (delFlag : Bool) (key : UInt32) :
    (b.appendFrame c e delFlag key).1.topics = b.topics := by
  unfold Batch.appendFrame
  repeat' split
  all_goals rfl

/-- A successful `PutEntry` appends one frame to the batch `preparePut` returned. -/
theorem putEntry_ok {b : Batch} {e : Entry} (h : (b.putEntry c e).2 = none) :
    ∃ b' e' key, b.preparePut c e = .ok (b', e', key) ∧
      b.putEntry c e = b'.appendFrame c e' false key := by
  unfold Batch.putEntry at h ⊢
  rcases hp : b.preparePut c e with err | ⟨b', e', key⟩
  · simp [hp] at h
  · exact ⟨b', e', key, rfl, rfl⟩

/-- A successful `DeleteEntry` appends one tombstone frame. -/
theorem deleteEntry_ok {b : Batch} {e : Entry} (h : (b.deleteEntry c e).2 = none) :
    ∃ e' key, b.prepareDelete c e = .ok (e', key) ∧
      b.deleteEntry c e = b.appendFrame c e' true key := by
  unfold Batch.deleteEntry at h ⊢
  rcases hp : b.prepareDelete c e with err | ⟨e', key⟩
  · simp [hp] at h
  · exact ⟨e', key, rfl, rfl⟩

end Effects

/-- A frame of `data` at offset `pre.length` decodes to `data` and its header, whatever
surrounds it. -/
theorem decodeFrame_frame (d : Decoder) (pre data rest : Bytes) {buf : Bytes} (index : BatchIndex)
    (hbuf : buf = pre ++ frame data ++ rest) (hoff : index.offset = pre.length)
    (hfit : data.length + 4 < 2 ^ 32) (hsize : d.entrySize ≤ data.length) :
    d.decodeFrame buf index = some ((d.unmarshal (data.take d.entrySize)).map fun h => (h, data)) := by
  have h1 : buf = pre ++ putUint32 (data.length + 4) ++ (data ++ rest) := by simp [hbuf, frame]
  have h2 : buf = (pre ++ putUint32 (data.length + 4)) ++ data ++ rest := by simp [hbuf, frame]
  have hw := slice_eq (a := pre.length) (i := 0) (j := 4) h1 rfl rfl (by omega) (by simp)
  have hword : readUint32 (((putUint32 (data.length + 4)).drop 0).take (4 - 0)) = data.length + 4 := by
    have := readUint32_putUint32 (data.length + 4) []
    rw [List.append_nil, Nat.mod_eq_of_lt hfit] at this
    rwa [List.drop_zero, Nat.sub_zero, List.take_of_length_le (by simp)]
  unfold Decoder.decodeFrame
  rw [hoff, hw]
  dsimp only
  have hlen : (pre ++ putUint32 (data.length + 4)).length = pre.length + 4 := by simp
  rw [hword, slice_eq (i := 0) (j := d.entrySize) h2 (by omega) (by omega) (by omega) hsize,
    slice_eq (i := 0) (j := data.length) h2 (by omega) (by omega) (by omega) le_rfl]
  simp

/-! ## `Write` applies a prefix of the pending writes -/

section WriteSpec
variable (d : Decoder) (st : Store) (b : Batch)

/-- The operations a pending put applies when nothing fails: the memtable `Set`, then,
if the batch knows the topic, the trie and time-window additions. -/
def Batch.putOps (topicHash seq : UInt64) (expiresAt : UInt32) (data : Bytes) : List DbOp :=
  .memSet (st.startBlockIndex seq) (st.cacheId ^^^ seq) data ::
    match b.topics.lookup topicHash with
    | some t => [.trieAdd topicHash t.parts t.depth, .windowAdd topicHash seq expiresAt]
    | none => []

/-- The operations one pending write applies when it goes through: `db.delete` for a
tombstone with a nonzero seq, the memtable, trie and window additions otherwise. -/
def Batch.writeOps (index : BatchIndex) : List DbOp :=
  match d.decodeFrame b.buffer index with
  | some (.ok (e, data)) =>
    if index.delFlag && e.seq != 0 then [.delete e.topicHash e.seq]
    else b.putOps st e.topicHash e.seq e.expiresAt data
  | _ => []

/-- A pending tombstone with a nonzero seq that the presence filter does not hold. -/
def Batch.filterMiss (index : BatchIndex) : Bool :=
  match d.decodeFrame b.buffer index with
  | some (.ok (e, _)) => index.delFlag && e.seq != 0 && !st.filter e.seq
  | _ => false

/-- The loop of `writeInternal` as `Write` runs it. -/
abbrev Batch.loop : Nat → List BatchIndex → List DbOp → List DbOp × Outcome :=
  writeLoop d st.filter (fun log h s => log ++ [.delete h s]) (b.writeEntry st) b.buffer

/-- The memtable callback applies all of its operations, or a prefix of them and fails. -/
theorem writeEntry_cases {i : Nat} {h s : UInt64} {exp : UInt32} {data : Bytes}
    {log log' : List DbOp} {err : Option Error}
    (hr : b.writeEntry st i h s exp data log = (log', err)) :
    (err = none ∧ log' = log ++ b.putOps st h s exp data) ∨
      err ≠ none ∧ ∃ part, part <+: b.putOps st h s exp data ∧ log' = log ++ part := by
  unfold Batch.writeEntry at hr
  unfold Batch.putOps
  dsimp only at hr
  rcases hm : st.memSetFails log (st.startBlockIndex s) (st.cacheId ^^^ s) data with _ | e
  · rcases hl : b.topics.lookup h with _ | t
    · simp only [hm, hl, Prod.mk.injEq] at hr
      exact .inr ⟨by simp [← hr.2], [.memSet (st.startBlockIndex s) (st.cacheId ^^^ s) data], by simp,
        by simp [hr]⟩
    · rcases hw : st.windowAddFails (log ++ [.memSet (st.startBlockIndex s) (st.cacheId ^^^ s) data] ++
          [.trieAdd h t.parts t.depth]) h s exp with _ | e
      · simp only [hm, hl, hw, Prod.mk.injEq] at hr
        exact .inl ⟨hr.2.symm, by simp [← hr.1]⟩
      · simp only [hm, hl, hw, Prod.mk.injEq] at hr
        exact .inr ⟨by simp [← hr.2], [.memSet (st.startBlockIndex s) (st.cacheId ^^^ s) data,
          .trieAdd h t.parts t.depth], by simp, by simp [← hr.1]⟩
  · simp only [hm, Prod.mk.injEq] at hr
    exact .inr ⟨by simp [← hr.2], [], List.nil_prefix, by simp [hr]⟩

/-- Whatever the outcome, the loop has applied the operations of the first `k` pending
writes and a prefix of those of the next one: nothing is undone, nothing is skipped. -/
theorem loop_applied_ops (pending : List BatchIndex) : ∀ (i : Nat) (log : List DbOp), ∃ k part,
    part <+: (((pending.drop k).take 1).map (b.writeOps d st)).flatten ∧
      (b.loop d st i pending log).1 = log ++ ((pending.take k).map (b.writeOps d st)).flatten ++ part := by
  induction pending with
  | nil => exact fun i log => ⟨0, [], List.nil_prefix, by simp [writeLoop]⟩
  | cons index rest ih =>
    intro i log
    -- the loop stops at `index`, having applied `part` of its operations
    have stop : ∀ part, part <+: b.writeOps d st index → ∀ r : List DbOp × Outcome,
        r.1 = log ++ part → ∃ k part,
          part <+: ((((index :: rest).drop k).take 1).map (b.writeOps d st)).flatten ∧
            r.1 = log ++ (((index :: rest).take k).map (b.writeOps d st)).flatten ++ part :=
      fun part hp r hr => ⟨0, part, by simpa using hp, by simpa using hr⟩
    -- the loop goes past `index`, having applied all of its operations
    have next : ∀ r : List DbOp × Outcome, (∃ k part,
        part <+: (((rest.drop k).take 1).map (b.writeOps d st)).flatten ∧
          r.1 = log ++ b.writeOps d st index ++ ((rest.take k).map (b.writeOps d st)).flatten ++ part) →
        ∃ k part, part <+: ((((index :: rest).drop k).take 1).map (b.writeOps d st)).flatten ∧
          r.1 = log ++ (((index :: rest).take k).map (b.writeOps d st)).flatten ++ part := by
      rintro r ⟨k, part, hp, hr⟩
      exact ⟨k + 1, part, by simpa using hp, by simp [hr]⟩
    simp only [Batch.loop, writeLoop]
    rcases hdec : d.decodeFrame b.buffer index with _ | _ | ⟨e, data⟩
    · exact stop [] List.nil_prefix _ (by simp)
    · exact stop [] List.nil_prefix _ (by simp)
    · have hw : b.writeOps d st index = if index.delFlag && e.seq != 0 then
          [.delete e.topicHash e.seq] else b.putOps st e.topicHash e.seq e.expiresAt data := by
        simp [Batch.writeOps, hdec]
      dsimp only
      split_ifs with htomb hmiss
      · exact stop [] List.nil_prefix _ (by simp)
      · obtain ⟨k, part, hp, hr⟩ := ih (i + 1) (log ++ [.delete e.topicHash e.seq])
        exact next _ ⟨k, part, hp, by rw [hw, if_pos htomb]; exact hr⟩
      · rcases hr : b.writeEntry st i e.topicHash e.seq e.expiresAt data log with ⟨log', _ | err⟩
        · rcases writeEntry_cases st b hr with ⟨-, rfl⟩ | ⟨hne, -⟩
          · obtain ⟨k, part, hp, hr⟩ := ih (i + 1) (log ++ b.putOps st e.topicHash e.seq e.expiresAt data)
            exact next _ ⟨k, part, hp, by rw [hw, if_neg htomb]; exact hr⟩
          · exact absurd rfl hne
        · rcases writeEntry_cases st b hr with ⟨h, -⟩ | ⟨-, part, hp, rfl⟩
          · cases h
          · exact stop part (by simpa [hw, htomb] using hp) _ (by simp)

/-- A loop that returns `nil` while no pending tombstone misses the filter has applied
every pending write in full. -/
theorem loop_complete (pending : List BatchIndex) : ∀ (i : Nat) (log : List DbOp),
    (b.loop d st i pending log).2 = .ok → (∀ index ∈ pending, b.filterMiss d st index = false) →
      (b.loop d st i pending log).1 = log ++ (pending.map (b.writeOps d st)).flatten := by
  induction pending with
  | nil => intro i log _ _; simp [writeLoop]
  | cons index rest ih =>
    intro i log hok hmiss
    have hrest := fun j hj => hmiss j (List.mem_cons_of_mem index hj)
    have hm := hmiss index (List.mem_cons_self index rest)
    simp only [Batch.loop, writeLoop] at hok ⊢
    rcases hdec : d.decodeFrame b.buffer index with _ | _ | ⟨e, data⟩ <;>
      simp only [hdec] at hok ⊢
    · cases hok
    · cases hok
    · have hw : b.writeOps d st index = if index.delFlag && e.seq != 0 then
          [.delete e.topicHash e.seq] else b.putOps st e.topicHash e.seq e.expiresAt data := by
        simp [Batch.writeOps, hdec]
      split_ifs at hok ⊢ with htomb hf
      · simp [Batch.filterMiss, hdec, htomb, hf] at hm
      · rw [ih _ _ hok hrest, List.map_cons, List.flatten_cons, hw, if_pos htomb]
        simp
      · rcases hr : b.writeEntry st i e.topicHash e.seq e.expiresAt data log with ⟨log', _ | err⟩ <;>
          simp only [hr] at hok ⊢
        · rcases writeEntry_cases st b hr with ⟨-, rfl⟩ | ⟨hne, -⟩
          · rw [ih _ _ hok hrest, List.map_cons, List.flatten_cons, hw, if_neg htomb]
            simp
          · exact absurd rfl hne
        · cases hok

end WriteSpec

end UnitDB.Source.WriteBatch
