import UnitDB.Source.WriteBatch

/-!
# Deduplication and failed calls of the write batch

`uniq` keeps, for each dedup key, the last entry the batch indexed, in index order, and a batch
that allows duplicates keeps its whole index (`uniq_keeps_last_occurrences`). The first loop of
`uniq` records the keys walking the index from its end (`uniqueSet_entries`), the second stores
entry number `newidx` at `len - newidx - 1` (`fillPending_self`), and every order in which Go
may visit the map fills the same slice (`fillPending_perm`).

What deduplication and the error paths do not keep:

* the dedup key of a put is `hash.WithSalt(value, topic hash code)`, while only the first put of a
  topic in the batch packs the topic's octets: two puts of one payload to a topic new to the batch
  leave one pending write, the second one, whose packed entry carries no topic
  (`uniq_drops_topic_carrier`);
* `PutEntry` records the topic in `b.topics` before `packEntry` can fail, and `PutEntry` and
  `DeleteEntry` both write the length word before the packed entry, so a failed call is not a
  no-op (`putEntry_error_keeps_topic`). What does hold: a failed call leaves the index, the size,
  the entry count and the pending writes as they were, and can only have recorded the topic and
  the length word (`failed_entry_frame`).
-/

set_option autoImplicit false

namespace UnitDB.Guarantees.BatchDedup
open UnitDB.Source UnitDB.Source.WriteBatch

/-! ## Last occurrences -/

/-- Deduplication as the spec reads it: an entry is kept when no later entry has its key. -/
def lastOccurrences : List BatchIndex → List BatchIndex
  | [] => []
  | x :: rest => if x.key ∈ rest.map (·.key) then lastOccurrences rest else x :: lastOccurrences rest

theorem keepFirst_append (seen : List UInt32) (l₁ l₂ : List BatchIndex) :
    keepFirst seen (l₁ ++ l₂) = keepFirst seen l₁ ++ keepFirst (seen ++ (keepFirst seen l₁).map (·.key)) l₂ := by
  induction l₁ generalizing seen with
  | nil => simp [keepFirst]
  | cons x l₁ ih =>
    by_cases hx : x.key ∈ seen
    · rw [List.cons_append, keepFirst, if_pos hx, ih, keepFirst, if_pos hx]
    · rw [List.cons_append, keepFirst, if_neg hx, ih, keepFirst, if_neg hx]
      simp

theorem mem_keepFirst_keys (k : UInt32) (l : List BatchIndex) : ∀ seen,
    k ∈ (keepFirst seen l).map (·.key) ↔ k ∉ seen ∧ k ∈ l.map (·.key) := by
  induction l with
  | nil => simp [keepFirst]
  | cons x l ih =>
    intro seen
    by_cases hx : x.key ∈ seen
    · rw [keepFirst, if_pos hx, ih]
      constructor
      · exact fun ⟨hs, hl⟩ => ⟨hs, List.mem_cons_of_mem _ hl⟩
      · rintro ⟨hs, hl⟩
        rcases List.mem_cons.mp hl with rfl | hl
        · exact absurd hx hs
        · exact ⟨hs, hl⟩
    · rw [keepFirst, if_neg hx, List.map_cons, List.mem_cons, ih, List.map_cons, List.mem_cons,
        List.mem_append, List.mem_singleton]
      by_cases hk : k = x.key <;> simp [hk, hx]

theorem mem_lastOccurrences_keys (k : UInt32) : ∀ l : List BatchIndex,
    k ∈ (lastOccurrences l).map (·.key) ↔ k ∈ l.map (·.key)
  | [] => Iff.rfl
  | x :: rest => by
    rw [lastOccurrences]
    split
    · rw [mem_lastOccurrences_keys k rest, List.map_cons, List.mem_cons]
      exact ⟨Or.inr, fun h => h.elim (fun e => e ▸ ‹_›) id⟩
    · rw [List.map_cons, List.mem_cons, mem_lastOccurrences_keys k rest, List.map_cons, List.mem_cons]

/-- Walking the index from its end and keeping the first entry of each key keeps the last
occurrences. -/
theorem keepFirst_reverse : ∀ l : List BatchIndex, keepFirst [] l.reverse = (lastOccurrences l).reverse
  | [] => rfl
  | x :: rest => by
    have seen : x.key ∈ (keepFirst [] rest.reverse).map (·.key) ↔ x.key ∈ rest.map (·.key) := by
      rw [mem_keepFirst_keys, List.map_reverse, List.mem_reverse]
      simp only [List.not_mem_nil, not_false_eq_true, true_and]
    rw [List.reverse_cons, keepFirst_append, keepFirst_reverse rest, List.nil_append, lastOccurrences]
    by_cases hx : x.key ∈ rest.map (·.key)
    · rw [if_pos hx, keepFirst, if_pos (by rwa [← keepFirst_reverse rest, seen]), keepFirst, List.append_nil]
    · rw [if_neg hx, keepFirst, if_neg (by rwa [← keepFirst_reverse rest, seen]), keepFirst, List.reverse_cons]

theorem uniq_keeps_last_occurrences (b : Batch) :
    b.uniq.pendingWrites = (if b.opts.allowDuplicates then b.index else lastOccurrences b.index) ∧
      ∀ order, order.Perm (uniqueSet b.index b.index.length []) →
        fillPending b.index (uniqueSet b.index b.index.length []) order = lastOccurrences b.index := by
  have newidx := uniqueSet_newidx b.index b.index.length [] rfl
  have fill : fillPending b.index (uniqueSet b.index b.index.length []) (uniqueSet b.index b.index.length []) =
      lastOccurrences b.index := by
    rw [fillPending_self _ _ newidx, uniqueSet_entries b.index b.index.length le_rfl [], List.map_nil,
      List.nil_append, List.map_nil, List.take_length, keepFirst_reverse, List.reverse_reverse]
  refine ⟨?_, fun order p => (fillPending_perm b.index newidx p).trans fill⟩
  unfold Batch.uniq
  split
  · rfl
  · exact fill

/-! ## Fixed inputs -/

/-- Collaborators for fixed inputs: a topic is its own octets and hashes to its length, its hash
code is 0, `setEntry` takes the payload as the value, the dedup key is the value's length, every
allocation is granted, and entries are packed by `pack`. -/
def sampleCollaborators (pack : Entry → Except Error Bytes) : Collaborators Bytes where
  maxTopicLength := 65535
  maxValueLength := 65535
  masterContract := 1
  parseTopic := fun _ t => .ok (t, 0)
  addContract := fun t _ => t
  getHash := fun t _ => t.length.toUInt64
  marshal := id
  getHashCode := fun _ => 0
  unmarshal := fun _ => ⟨[], 0⟩
  setEntry := fun e _ => .ok { e with val := e.payload }
  idWithContract := fun id _ => id
  idSequence := fun _ => 0
  packEntry := pack
  withSalt := fun v _ => v.length.toUInt32
  allocates := fun _ _ => true
  allocError := .io 0

/-- A packed entry that begins with the topic size it was packed with, then the value. -/
def packTopicSize (e : Entry) : Except Error Bytes := .ok (e.topicSize.toUInt8 :: e.val)

/-- An empty batch that does not allow duplicates. -/
def emptyBatch : Batch := ⟨⟨0, false, false, false⟩, false, 0, [], 0, [], [], []⟩

/-- A put of payload `[2]` to topic `[1]`. -/
def sampleEntry : Entry := ⟨[], [1], [2], 0, 0, [], 0, false, [], 0, [], 0⟩

/-- Two calls of `PutEntry` with one entry: the batch, and the errors the calls returned. -/
def putTwice {Topic : Type} (c : Collaborators Topic) (b : Batch) (e : Entry) : Batch × List (Option Error) :=
  (((b.putEntry c e).1.putEntry c e).1, [(b.putEntry c e).2, ((b.putEntry c e).1.putEntry c e).2])

/-- Both puts succeed and write frames packed with topic sizes 1 and 0; `uniq` keeps only the
second, whose frame at offset 6 carries no topic, though the batch saw the topic for the first
time. -/
theorem uniq_drops_topic_carrier :
    (putTwice (sampleCollaborators packTopicSize) emptyBatch sampleEntry).2 = [none, none] ∧
      (putTwice (sampleCollaborators packTopicSize) emptyBatch sampleEntry).1.topics.map (·.1) = [1] ∧
      (putTwice (sampleCollaborators packTopicSize) emptyBatch sampleEntry).1.buffer =
        frame [1, 2] ++ frame [0, 2] ∧
      (putTwice (sampleCollaborators packTopicSize) emptyBatch sampleEntry).1.uniq.pendingWrites =
        [⟨false, 1, 6⟩] :=
  ⟨rfl, rfl, rfl, rfl⟩

/-- `packEntry` fails after the topic was recorded: the failed `PutEntry` leaves the topic in
`b.topics`, so a later put of that topic would not pack it. -/
theorem putEntry_error_keeps_topic :
    emptyBatch.putEntry (sampleCollaborators fun _ => .error (.io 1)) sampleEntry =
      ({ emptyBatch with topics := [(1, ⟨[], 0⟩)] }, some (.io 1)) :=
  rfl

/-! ## What a failed call keeps -/

/-- The fields a failed call leaves as they were, with the buffer grown by at most a length word. -/
def Kept (b b' : Batch) : Prop :=
  b'.opts = b.opts ∧ b'.grouped = b.grouped ∧ b'.index = b.index ∧ b'.size = b.size ∧
    b'.entryCount = b.entryCount ∧ b'.pendingWrites = b.pendingWrites ∧
    (b'.buffer = b.buffer ∨ ∃ n, b'.buffer = b.buffer ++ putUint32 n)

theorem Kept.of_topics {b b' x : Batch} (k : Kept b' x) (h : b' = { b with topics := b'.topics }) : Kept b x := by
  rw [h] at k
  exact k

theorem kept_of_appendFrame {Topic : Type} (c : Collaborators Topic) {b : Batch} {e : Entry} {delFlag : Bool}
    {key : UInt32} {err : Error} (h : (b.appendFrame c e delFlag key).2 = some err) :
    Kept b (b.appendFrame c e delFlag key).1 := by
  rcases appendFrame_error c h with same | ⟨n, grown⟩
  · rw [same]; exact ⟨rfl, rfl, rfl, rfl, rfl, rfl, .inl rfl⟩
  · rw [grown]; exact ⟨rfl, rfl, rfl, rfl, rfl, rfl, .inr ⟨n, rfl⟩⟩

theorem failed_entry_frame {Topic : Type} (c : Collaborators Topic) (b : Batch) (e : Entry) :
    (∀ err, (b.putEntry c e).2 = some err → Kept b (b.putEntry c e).1 ∧
      ((b.putEntry c e).1.topics = b.topics ∨ ∃ t, (b.putEntry c e).1.topics = t :: b.topics)) ∧
    (∀ err, (b.deleteEntry c e).2 = some err → Kept b (b.deleteEntry c e).1 ∧
      (b.deleteEntry c e).1.topics = b.topics) := by
  refine ⟨fun err h => ?_, fun err h => ?_⟩
  · unfold Batch.putEntry at h ⊢
    rcases hp : b.preparePut c e with _ | ⟨b', e', key⟩
    · exact ⟨⟨rfl, rfl, rfl, rfl, rfl, rfl, .inl rfl⟩, .inl rfl⟩
    · simp only [hp] at h ⊢
      rw [appendFrame_topics]
      exact ⟨(kept_of_appendFrame c h).of_topics (preparePut_frame c hp), preparePut_topics c hp⟩
  · unfold Batch.deleteEntry at h ⊢
    rcases hp : b.prepareDelete c e with _ | ⟨e', key⟩
    · exact ⟨⟨rfl, rfl, rfl, rfl, rfl, rfl, .inl rfl⟩, rfl⟩
    · simp only [hp] at h ⊢
      exact ⟨kept_of_appendFrame c h, appendFrame_topics c _ _ _ _⟩

end UnitDB.Guarantees.BatchDedup
