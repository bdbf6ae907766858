import UnitDB.Source.Expiry

/-!
# What the expirer leaves in the index

`expireEntries` frees, in order, the message extents of the expired entries that pass the filter,
and takes one off the count for each; it stops with `nil` at the first entry it cannot find in its
block, and with the error at the first block it cannot read short of the end of the file. It never
rewrites the index (`expireEntries_keeps_entries`). So:

* an expired entry missing from its block ends the run, and the expired entries after it are
  not freed;
* `readEntry` of an expired seq returns what it returned before the run: the entry itself, whose
  `msgOffset` still points at the extent the lease now holds as free
  (`expireEntries_skips_and_keeps_entry`).
-/

set_option autoImplicit false

namespace UnitDB.Guarantees.ExpiryIndex
open UnitDB.Source UnitDB.Source.Expiry

/-- Over every state, every list of expired entries and every pattern of read errors, the run
leaves the index blocks, and so every `readEntry`, as they were. -/
theorem expireEntries_keeps_entries (E : Env) (s : State) (expired : List WinEntry) :
    (s.expireEntries E expired).1.blocks = s.blocks ∧
      ∀ seq, (s.expireEntries E expired).1.readEntry E seq = s.readEntry E seq :=
  ⟨expireLoop_blocks E expired s, readEntry_congr E (expireLoop_blocks E expired s)⟩

/-- One index block holding seq 5 at offset 100; every seq maps to block 0 and passes the
filter, every message is 10 octets, and every read succeeds. -/
def sampleEnv : Env := ⟨fun _ => 0, fun _ => 0, fun _ => true, fun _ => 10, fun _ => none⟩

def sampleState : State := ⟨[[⟨5, 100, 0, 0⟩]], [], 1⟩

/-- Expiring seq 7 (absent) then seq 5 frees nothing; expiring seq 5 alone frees its extent, and
`readEntry(5)` still returns the entry at that extent. -/
theorem expireEntries_skips_and_keeps_entry :
    sampleState.expireEntries sampleEnv [⟨7, 0⟩, ⟨5, 0⟩] = (sampleState, none) ∧
      (sampleState.expireEntries sampleEnv [⟨5, 0⟩]).1.lease = [(5, 100, 10)] ∧
      (sampleState.expireEntries sampleEnv [⟨5, 0⟩]).1.count = 0 ∧
      (sampleState.expireEntries sampleEnv [⟨5, 0⟩]).1.readEntry sampleEnv 5 = .ok ⟨5, 100, 0, 0⟩ :=
  ⟨rfl, rfl, rfl, rfl⟩

end UnitDB.Guarantees.ExpiryIndex
