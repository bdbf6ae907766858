import UnitDB.Source.TraceDB
import UnitDB.Source.LinearHashChains

/-!
# Side effects of the first index's `put`, `delete` and `expireOldEntries`

Three places where the first index (`tracedb`) does less, or more, than its callers rely on,
each shown on a small index of one chain:

* `put`'s overflow branch returns right after `originalB.write()`, before `filter.Append` and
  `timeWindow.add`: a key that lands in a new overflow block is never in the presence filter, so
  `delete` of it returns `nil` at the filter test and removes nothing, while the same put into a
  chain with room does append the hash and the window slot (`overflow_put_skips_filter`);
* `expireOldEntries` looks for the expired entry's slot by hash alone and removes the first slot
  of the chain with that hash: with two keys of one salted hash in a chain, expiring the second
  removes the first, a live key, and frees its record (`expire_removes_colliding_key`);
* a failing index call is not undone: `put` has counted a new key before `writeKeyValue` fails,
  and has freed the record of the key it overwrites though the slot still points at it; the
  second index's `split` has advanced `splitBlockIdx` and `level` when a read of its walk fails,
  and `nBlocks` no longer equals `2^level + splitBlockIdx` (`failed_calls_change_index`).
-/

set_option autoImplicit false

namespace UnitDB.Guarantees.TraceDBIndex
open UnitDB.Source UnitDB.Source.TraceDB
open UnitDB.Source.LinearHash (Loc)

/-- Keys hash to 7, but for `[99]`, which hashes to 8; the filter has no false positives; a topic
has one part per octet. -/
def sampleEnv : Env :=
  ⟨512, 4096, fun k => if k = [99] then 8 else 7, fun _ => false, fun t => t.map fun b => ⟨b.toUInt32, 0⟩⟩

/-- No fallible call of `put` fails. -/
def noFaults : PutIO := ⟨none, none, none, none⟩

/-- `writeKeyValue` fails. -/
def writeFails : PutIO := ⟨none, some (.io 1), none, none⟩

/-- An index of one chain, block 0 of the index file, holding `slots` with no overflow block; the
data file holds `records` and ends at 1000. -/
def oneChain (slots : List TraceDB.Slot) (records : List (Int × Record)) (count : UInt32)
    (trie : TopicTrie.Trie) (h : (slots ++ List.replicate (22 - slots.length) Slot.free).length = 22) : DB :=
  ⟨0, count, 1, 0, ⟨512 + 4096, [(512, ⟨slots ++ List.replicate (22 - slots.length) .free, 0, h⟩)]⟩,
    ⟨1000, [], records, []⟩, [7], [], trie⟩

/-- Block 0 full with 22 keys `[i]` of hash 7. -/
def fullChain : DB :=
  oneChain ((List.range 22).map fun (i : Nat) => ⟨7, 0, 1, 0, (i : Int) + 1⟩)
    ((List.range 22).map fun (i : Nat) => ((i : Int) + 1, ⟨[], [i.toUInt8], [1]⟩)) 22 TopicTrie.newTrie rfl

/-- Block 0 with one key `[0]` of hash 7. -/
def roomyChain : DB :=
  oneChain [⟨7, 0, 1, 0, 1⟩] [(1, ⟨[], [0], [1]⟩)] 1 TopicTrie.newTrie rfl

/-- A put of key `[99]` fills a new overflow block of the full chain: the filter and the window
stay as they were, and `delete([99])` returns `nil` without removing it; the same put into the
chain with room appends the hash and the window slot. -/
theorem overflow_put_skips_filter :
    (fullChain.put sampleEnv noFaults [] [99] [1] 5).2 = none ∧
      (fullChain.put sampleEnv noFaults [] [99] [1] 5).1.count = 23 ∧
      (fullChain.put sampleEnv noFaults [] [99] [1] 5).1.filter = [7] ∧
      (fullChain.put sampleEnv noFaults [] [99] [1] 5).1.window = [] ∧
      ((fullChain.put sampleEnv noFaults [] [99] [1] 5).1.delete sampleEnv [99]).2 = none ∧
      ((fullChain.put sampleEnv noFaults [] [99] [1] 5).1.delete sampleEnv [99]).1.count = 23 ∧
      (roomyChain.put sampleEnv noFaults [] [99] [1] 5).1.filter = [7, 8] ∧
      (roomyChain.put sampleEnv noFaults [] [99] [1] 5).1.window.length = 1 :=
  ⟨rfl, rfl, rfl, rfl, rfl, rfl, rfl, rfl⟩

/-- Two keys of hash 7 in one chain: `[10]` under topic `[1]`, live, in slot 0, and `[20]` under
topic `[2]`, expiring at 5, in slot 1; the trie holds the hash under both topics. -/
def collidingChain : DB :=
  oneChain [⟨7, 1, 1, 0, 1⟩, ⟨7, 1, 1, 5, 2⟩] [(1, ⟨[1], [10], [1]⟩), (2, ⟨[2], [20], [2]⟩)] 2
    ((TopicTrie.newTrie.add (sampleEnv.topicParts [1]) 0 7).1.add (sampleEnv.topicParts [2]) 0 7).1 rfl

/-- Expiring the slot of `[20]` removes slot 0, the live key `[10]`, and frees its record at
offset 1; the expired slot stays, now first in the block. -/
theorem expire_removes_colliding_key :
    (collidingChain.expireOldEntries sampleEnv [⟨7, 1, 1, 5, 2⟩]).map (·.count) = some 1 ∧
      (collidingChain.expireOldEntries sampleEnv [⟨7, 1, 1, 5, 2⟩]).map (·.data.freelist) = some [(1, 18)] ∧
      (collidingChain.expireOldEntries sampleEnv [⟨7, 1, 1, 5, 2⟩]).map
        (fun db => (db.readBlock sampleEnv (.index 512)).map fun b => b.slot 0) = some (some ⟨7, 1, 1, 5, 2⟩) :=
  ⟨rfl, rfl, rfl⟩

/-- The second index's environment of these examples: every key hashes to 0. -/
def pageEnv : LinearHash.Env := ⟨512, 4096, fun _ => 0, fun _ => true⟩

/-- The second index after `Open`, whose block 0 points to an overflow block that cannot be read. -/
def brokenChain : LinearHash.HashDB :=
  { LinearHash.HashDB.fresh pageEnv with index := ⟨512 + 4096, [(512, LinearHash.Block.zero.setNext 4096)]⟩ }

/-- `put` of a new key whose `writeKeyValue` fails has counted it; `put` over the key `[10]` whose
`writeKeyValue` fails has freed `[10]`'s record at offset 1, which slot 0 still points at; the
second index's `split`, failing on its walk, has moved to level 1 with `splitBlockIdx` 0 and still
one block. -/
theorem failed_calls_change_index :
    (collidingChain.put sampleEnv writeFails [3] [30] [3] 0).2 = some (.io 1) ∧
      (collidingChain.put sampleEnv writeFails [3] [30] [3] 0).1.count = 3 ∧
      (collidingChain.put sampleEnv writeFails [1] [10] [9] 0).2 = some (.io 1) ∧
      (collidingChain.put sampleEnv writeFails [1] [10] [9] 0).1.data.freelist = [(1, 18)] ∧
      ((collidingChain.put sampleEnv writeFails [1] [10] [9] 0).1.readBlock sampleEnv (.index 512)).map
        (fun b => b.slot 0) = some ⟨7, 1, 1, 0, 1⟩ ∧
      (brokenChain.split pageEnv .reliable).2 = some (.io 0) ∧
      (brokenChain.split pageEnv .reliable).1.level = 1 ∧ (brokenChain.split pageEnv .reliable).1.splitBlockIdx = 0 ∧
      (brokenChain.split pageEnv .reliable).1.nBlocks = 1 :=
  ⟨rfl, rfl, rfl, rfl, rfl, rfl, rfl, rfl, rfl⟩

end UnitDB.Guarantees.TraceDBIndex
