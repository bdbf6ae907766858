import UnitDB.Source.WriteBatch

/-!
# Batch frames and the partial effect of `Write`

Two guarantees of `batch.go`, stated over every batch and every store:

* `write_applied_ops`: `Write` hands a grouped batch to its batch group and applies none of
  its pending writes; on a batch that is not grouped it applies the operations of its
  pending writes in order and undoes none of them. Whatever it returns, what it
  applied is the first `k` pending writes and part of the next; when it returns `nil`
  and no pending tombstone misses the presence filter, it applied all of them. So the
  write is not all-or-nothing: `write_error_after_first_put` is a batch of two puts whose
  second memtable `Set` fails, and `Write` reports the error with the first put applied.
* `putEntry_after_reset_reads_stale_frame`: `Reset` zeroes `size` and the index but keeps
  the buffer's octets, so the next `PutEntry` indexes its frame at offset 0 while writing
  it behind the old frames; `writeInternal` then decodes the old packed entry for it.

The sample collaborators at the end are one concrete instance of the parser, packer and
decoder; the theorems above hold for all of them.
-/

set_option autoImplicit false

namespace UnitDB.Guarantees.BatchWrite
open UnitDB.Source UnitDB.Source.WriteBatch

theorem uniq_frame (b : Batch) : b.uniq = { b with pendingWrites := b.uniq.pendingWrites } := by
  unfold Batch.uniq
  split <;> rfl

/-- `Write` hands a grouped batch to its batch group and returns `nil` having applied none of its
pending writes; on a batch that is not grouped it applies a prefix of its pending writes'
operations, and all of them when it returns `nil` with no tombstone missing from the filter. -/
theorem write_applied_ops (d : Decoder) (st : Store) (b : Batch) (log : List DbOp) :
    let r := b.write d st log
    let pending := r.1.pendingWrites
    (b.grouped = true → r.2.1 = log ++ [.enqueue pending] ∧ r.2.2 = .ok) ∧
      (b.grouped = false →
        (∃ k part, part <+: (((pending.drop k).take 1).map (r.1.writeOps d st)).flatten ∧
            r.2.1 = log ++ ((pending.take k).map (r.1.writeOps d st)).flatten ++ part) ∧
          (r.2.2 = .ok → (∀ index ∈ pending, r.1.filterMiss d st index = false) →
            r.2.1 = log ++ (pending.map (r.1.writeOps d st)).flatten)) := by
  have hg : b.uniq.grouped = b.grouped := by rw [uniq_frame]
  refine ⟨fun grouped => ?_, fun notGrouped => ?_⟩
  · simp [Batch.write, hg, grouped]
  simp only [Batch.write, hg, notGrouped, Bool.false_eq_true, if_false, writeInternal]
  rcases st.dbOk with _ | err
  · exact ⟨loop_applied_ops d st b.uniq _ 0 log, loop_complete d st b.uniq _ 0 log⟩
  · exact ⟨⟨0, [], List.nil_prefix, by simp⟩, fun h => by cases h⟩

/-- After `Reset`, a successful `PutEntry` writes its frame behind the octets the buffer
kept and indexes it at offset 0. When those octets start with the frame of `old`, the size
falls short of the buffer and `writeInternal` decodes `old` for the new pending write. -/
theorem putEntry_after_reset_reads_stale_frame {Topic : Type} (c : Collaborators Topic)
    (d : Decoder) (b : Batch) (e : Entry) (old rest : Bytes)
    (hold : b.buffer = frame old ++ rest) (hfit : old.length + 4 < 2 ^ 32)
    (hsize : d.entrySize ≤ old.length) (hput : (b.reset.putEntry c e).2 = none) :
    let b' := (b.reset.putEntry c e).1
    b'.size < b'.buffer.length ∧ ∃ key, b'.index = [⟨false, key, 0⟩] ∧
      d.decodeFrame b'.buffer ⟨false, key, 0⟩ =
        some ((d.unmarshal (old.take d.entrySize)).map fun h => (h, old)) := by
  obtain ⟨b'', e', key, hprep, heq⟩ := putEntry_ok c hput
  have hframe := preparePut_frame c hprep
  rw [heq] at hput ⊢
  obtain ⟨data, -, happ⟩ := appendFrame_ok c hput
  rw [happ, hframe]
  refine ⟨by simp [Batch.reset, hold, frame]; omega, key, by simp [Batch.reset], ?_⟩
  exact decodeFrame_frame d [] old (rest ++ frame data) _ (by simp [Batch.reset, hold]) rfl hfit hsize

/-! ## A concrete instance -/

/-- Collaborators where every topic parses to hash 7, `setEntry` takes the seq from the
first payload octet, and `packEntry` packs the seq octet before the value. -/
def sampleCollaborators : Collaborators Unit where
  maxTopicLength := 65535
  maxValueLength := 1024
  masterContract := 1
  parseTopic := fun _ _ => .ok ((), 0)
  addContract := fun t _ => t
  getHash := fun _ _ => 7
  marshal := fun _ => [7]
  getHashCode := fun _ => 0
  unmarshal := fun _ => ⟨[⟨7, 0⟩], 0⟩
  setEntry := fun e _ => .ok { e with seq := (e.payload.headD 0).toUInt64, val := e.payload }
  idWithContract := fun id _ => id
  idSequence := fun id => (id.headD 0).toUInt64
  packEntry := fun e => .ok (e.seq.toUInt8 :: e.val)
  withSalt := fun v _ => (v.headD 0).toUInt32
  allocates := fun _ _ => true
  allocError := .io 0

/-- The matching decoder: a one-octet header holding the seq, topic hash 7. -/
def sampleDecoder : Decoder := ⟨1, fun bs => .ok ⟨(bs.headD 0).toUInt64, 7, 0⟩⟩

def emptyBatch : Batch := ⟨⟨0, false, false, false⟩, false, 0, [], 0, [], [], []⟩

/-- A put of the one-octet payload `v` on the one-octet topic `t`. -/
def samplePut (v : UInt8) : Entry := ⟨[], [0x74], [v], 0, 0, [], 0, false, [], 0, [], 0⟩

/-- A store whose memtable refuses the `Set` of seq 2. -/
def refusingStore : Store where
  dbOk := none
  filter := fun _ => true
  cacheId := 0
  startBlockIndex := fun _ => 0
  memSetFails := fun _ _ memseq _ => if memseq = 2 then some (.io 1) else none
  windowAddFails := fun _ _ _ _ => none

/-- The batch of one put, and of two puts with distinct dedup keys. -/
def onePut : Batch := (emptyBatch.putEntry sampleCollaborators (samplePut 1)).1

def twoPuts : Batch := (onePut.putEntry sampleCollaborators (samplePut 2)).1

theorem write_applied_ops_two_puts :
    twoPuts.grouped = false ∧
      let r := twoPuts.write sampleDecoder refusingStore []
      let pending := r.1.pendingWrites
      (∃ k part, part <+: (((pending.drop k).take 1).map (r.1.writeOps sampleDecoder refusingStore)).flatten ∧
          r.2.1 = [] ++ ((pending.take k).map (r.1.writeOps sampleDecoder refusingStore)).flatten ++ part) ∧
        (r.2.2 = .ok → (∀ index ∈ pending, r.1.filterMiss sampleDecoder refusingStore index = false) →
          r.2.1 = [] ++ (pending.map (r.1.writeOps sampleDecoder refusingStore)).flatten) :=
  ⟨rfl, (write_applied_ops sampleDecoder refusingStore twoPuts []).2 rfl⟩

theorem stale_frame_after_reset_one_put :
    onePut.buffer = frame [1, 1] ++ [] ∧ (onePut.reset.putEntry sampleCollaborators (samplePut 2)).2 = none ∧
      let b' := (onePut.reset.putEntry sampleCollaborators (samplePut 2)).1
      b'.size < b'.buffer.length ∧ ∃ key, b'.index = [⟨false, key, 0⟩] ∧
        sampleDecoder.decodeFrame b'.buffer ⟨false, key, 0⟩ =
          some ((sampleDecoder.unmarshal ([1, 1].take sampleDecoder.entrySize)).map fun h => (h, [1, 1])) :=
  ⟨by decide, by decide, putEntry_after_reset_reads_stale_frame sampleCollaborators sampleDecoder onePut
    (samplePut 2) [1, 1] [] (by decide) (by decide) (by decide) (by decide)⟩

/-- Two puts; the memtable refuses the second. `Write` returns the error after the first
put has reached the memtable, the trie and the time window. -/
theorem write_error_after_first_put :
    let r := twoPuts.write sampleDecoder refusingStore []
    r.2.2 = .error (.io 1) ∧
      r.2.1 = [.memSet 0 1 [1, 1], .trieAdd 7 [⟨7, 0⟩] 0, .windowAdd 7 1 0] := by
  decide

end UnitDB.Guarantees.BatchWrite
