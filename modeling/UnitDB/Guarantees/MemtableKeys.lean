import UnitDB.Source.WriteBatch
import UnitDB.Source.SyncHandle
import UnitDB.Guarantees.BatchWrite

/-!
# Where `Write` puts a packed entry in the memtable, and where `Sync` looks for it

`Batch.Write` inserts the packed entry of seq `s` under `(startBlockIndex(s), cacheID ^ s)`
(batch.go:241-243); `Sync` reads the entry of topic `h`, seq `s` under `(h, cacheID ^ s)`
and, after the topic, frees every `(h, m)` with `m ≤ cacheID ^ upperSeq`
(db_sync.go:241-242, 277). With the memtable as the spec's map (`Memtable`):

* `write_inserts_keyed_by_block`: every insert `Write` makes, whatever it returns, is keyed
  by the block of its seq;
* `write_and_sync_memtable_keys_disagree`: so for a topic hash `h ≠ startBlockIndex(s)` the
  value `Sync` reads under `(h, cacheID ^ s)` is the one it was before `Write`; and the free
  compares memseqs, whose order XOR with the cache id does not keep: with cache id 1 and
  upper seq 2 it removes the entry of seq 3, which no flush has taken yet.

Only the inserts among `Write`'s operations touch the memtable here (`replay`).
-/

set_option autoImplicit false

namespace UnitDB.Guarantees.MemtableKeys
open UnitDB.Source UnitDB.Source.WriteBatch UnitDB.Source.SyncHandle

/-- The memtable after the inserts among `ops`. -/
def replay (m : Memtable) (ops : List DbOp) : Memtable :=
  ops.foldl (fun m op => match op with
    | .memSet x memseq data => m.set x memseq data
    | _ => m) m

theorem replay_append (m : Memtable) (log new : List DbOp) :
    replay m (log ++ new) = replay (replay m log) new :=
  List.foldl_append _ _ _ _

/-- Inserts under other keys leave a key's value alone. -/
theorem replay_get_of_keys {y my : UInt64} :
    ∀ (new : List DbOp) (m : Memtable), (∀ x mx data, .memSet x mx data ∈ new → x ≠ y ∨ mx ≠ my) →
      (replay m new).get y my = m.get y my
  | [], _, _ => rfl
  | op :: rest, m, apart => by
    have rest_apart := fun x mx data h => apart x mx data (List.mem_cons_of_mem op h)
    cases op with
    | memSet x mx data =>
      rw [show replay m (.memSet x mx data :: rest) = replay (m.set x mx data) rest from rfl,
        replay_get_of_keys rest _ rest_apart, Memtable.get_set]
      rcases apart x mx data (List.mem_cons_self _ _) with h | h <;> simp [Ne.symm h]
    | _ => exact replay_get_of_keys rest m rest_apart

theorem xor_cancel {c a b : UInt64} (h : c ^^^ a = c ^^^ b) : a = b := by
  have key (x : UInt64) : (c ^^^ (c ^^^ x)).toBitVec = x.toBitVec := by
    show c.toBitVec ^^^ (c.toBitVec ^^^ x.toBitVec) = x.toBitVec
    rw [← BitVec.xor_assoc, BitVec.xor_self, BitVec.xor_comm, BitVec.xor_zero]
  have := (key a).symm.trans ((congrArg (fun y => (c ^^^ y).toBitVec) h).trans (key b))
  cases a; cases b
  exact congrArg UInt64.mk this

section Write
variable (d : Decoder) (st : Store) (b : Batch)

/-- The insert a pending write makes is keyed by the block of its seq. -/
theorem writeOps_keys (index : BatchIndex) {x m : UInt64} {data : Bytes}
    (h : .memSet x m data ∈ b.writeOps d st index) : ∃ seq, x = st.startBlockIndex seq ∧ m = st.cacheId ^^^ seq := by
  unfold Batch.writeOps at h
  split at h
  · split at h
    · simp at h
    · simp only [Batch.putOps, List.mem_cons] at h
      rcases h with h | h
      · cases h
        exact ⟨_, rfl, rfl⟩
      · split at h <;> simp at h
  · simp at h

/-- So is every insert the pending writes of a list make. -/
theorem writeOps_flatten_keys (l : List BatchIndex) {x m : UInt64} {data : Bytes}
    (h : .memSet x m data ∈ (l.map (b.writeOps d st)).flatten) :
    ∃ seq, x = st.startBlockIndex seq ∧ m = st.cacheId ^^^ seq := by
  simp only [List.mem_flatten, List.mem_map] at h
  obtain ⟨_, ⟨index, -, rfl⟩, hin⟩ := h
  exact writeOps_keys d st b index hin

theorem write_inserts_keyed_by_block (log : List DbOp) :
    ∃ new, (b.write d st log).2.1 = log ++ new ∧
      ∀ x m data, .memSet x m data ∈ new → ∃ seq, x = st.startBlockIndex seq ∧ m = st.cacheId ^^^ seq := by
  unfold Batch.write
  dsimp only
  split
  · exact ⟨_, rfl, by simp⟩
  · simp only [writeInternal]
    rcases st.dbOk with _ | err
    · obtain ⟨k, part, ⟨rest, hrest⟩, hlog⟩ := loop_applied_ops d st b.uniq b.uniq.pendingWrites 0 log
      refine ⟨((b.uniq.pendingWrites.take k).map (b.uniq.writeOps d st)).flatten ++ part,
        by rw [hlog, List.append_assoc], fun x m data hmem => ?_⟩
      rcases List.mem_append.mp hmem with done | next
      · exact writeOps_flatten_keys d st b.uniq _ done
      · exact writeOps_flatten_keys d st b.uniq _ (hrest ▸ List.mem_append_left rest next)
    · exact ⟨[], by simp, by simp⟩

end Write

theorem write_and_sync_memtable_keys_disagree (d : Decoder) (st : Store) (b : Batch) (log : List DbOp)
    (m₀ : Memtable) (h s : UInt64) (apart : h ≠ st.startBlockIndex s) :
    (replay m₀ (b.write d st log).2.1).get h (st.cacheId ^^^ s) = (replay m₀ log).get h (st.cacheId ^^^ s) ∧
      ∀ (ss : SyncState) (env : Env) (offsets : List (UInt64 × Nat)), env.cacheId = 1 → ss.upperSeq = 2 →
        (ss.freeTopic env h offsets).mem.get h (env.cacheId ^^^ 3) = none := by
  obtain ⟨new, hlog, keys⟩ := write_inserts_keyed_by_block d st b log
  refine ⟨?_, fun ss env offsets hc hu => ?_⟩
  · rw [hlog, replay_append]
    refine replay_get_of_keys new _ fun x mx data hin => ?_
    obtain ⟨seq, rfl, rfl⟩ := keys x mx data hin
    by_cases same : seq = s
    · exact .inl (same ▸ apart.symm)
    · exact .inr fun hx => same (xor_cancel hx)
  · simp only [SyncState.freeTopic, Memtable.get_free, hc, hu, true_and]
    exact if_pos (by decide)

/-- `Write` of one put of topic hash 7 and seq 1, whose block is 0. -/
theorem write_and_sync_memtable_keys_disagree_one_put :
    (7 : UInt64) ≠ BatchWrite.refusingStore.startBlockIndex 1 ∧
      ((replay ⟨fun _ _ => none⟩ (BatchWrite.onePut.write BatchWrite.sampleDecoder BatchWrite.refusingStore []).2.1).get 7
          (BatchWrite.refusingStore.cacheId ^^^ 1) =
        (replay ⟨fun _ _ => none⟩ []).get 7 (BatchWrite.refusingStore.cacheId ^^^ 1) ∧
      ∀ (ss : SyncState) (env : Env) (offsets : List (UInt64 × Nat)), env.cacheId = 1 → ss.upperSeq = 2 →
        (ss.freeTopic env 7 offsets).mem.get 7 (env.cacheId ^^^ 3) = none) :=
  ⟨by decide, write_and_sync_memtable_keys_disagree BatchWrite.sampleDecoder BatchWrite.refusingStore
    BatchWrite.onePut [] ⟨fun _ _ => none⟩ 7 1 (by decide)⟩

end UnitDB.Guarantees.MemtableKeys
