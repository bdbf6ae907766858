import UnitDB.Source.LinearHashChains

/-!
# Keys the linear-hash index cannot find

`put`, `Get`, `Has` and `Delete` match a slot to a key by the hash, by `uint16(len(key))`
against the slot's `keySize`, and by the key read back with `keySize` octets. The index takes
keys of up to `MaxKeyLength = 1 << 16` octets, and for one of exactly that length
`uint16(len(key))` is 0: its slot records a key size of 0, and the key read back is empty.

* `get_long_key`, `has_long_key`: in any state, `Get` of such a key returns `nil` and `Has`
  returns `false`, unless their walk fails: a slot loop stops for it only at a free slot or at a
  slot whose key it cannot read.
* `max_length_key_lost`: from a fresh index, two `put`s of such a key both succeed, each in a
  slot of its own, so `Count()` is 2 where one key was put, and `Get` returns `nil` where the
  last value put is expected.
-/

set_option autoImplicit false

namespace UnitDB.Guarantees.LinearHashLookup
open UnitDB.Source UnitDB.Source.LinearHash

/-- `MaxKeyLength`. -/
def maxKeyLength : Nat := 65536

section
variable {h : UInt32} {key : Bytes} {read : Slot → Option Bytes}

/-- A slot's `keySize` is below `MaxKeyLength`, and so is the key its record holds. -/
theorem slotKey_length_lt (data : DataFile) (sl : Slot) : (data.slotKey sl).length < maxKeyLength :=
  lt_of_le_of_lt (List.length_take_le _ _) sl.keySize.val.isLt

/-- The keys `Has`, `Delete` and `put` read are keys records hold. -/
theorem readKey_short (data : DataFile) (sl : Slot) {k : Bytes} (hk : data.readKey sl = some k) :
    k.length < maxKeyLength := by
  unfold DataFile.readKey at hk
  split at hk
  · exact Option.some.inj hk ▸ slotKey_length_lt data sl
  · cases hk

/-- The keys `Get` reads with their values are keys records hold. -/
theorem readKeyValue_short (data : DataFile) (sl : Slot) {k : Bytes} (hk : (data.readKeyValue sl).map (·.1) = some k) :
    k.length < maxKeyLength := by
  unfold DataFile.readKeyValue at hk
  split at hk
  · exact Option.some.inj hk ▸ slotKey_length_lt data sl
  · cases hk

variable (short : ∀ sl k, read sl = some k → k.length < maxKeyLength) (long : key.length = maxKeyLength)
include short long

/-- For a key of `MaxKeyLength` octets a slot loop stops at free slots, and at slots whose key it
cannot read, only. -/
theorem stops_long_key {sl : Slot} (stops : Stops read h key sl = true) : sl.kvOffset = 0 ∨ read sl = none := by
  cases hr : read sl with
  | none => exact .inr rfl
  | some k =>
    refine .inl (by_contra fun used => ?_)
    simp only [Stops, used, hr, decide_False, Option.all_some, Bool.false_or, Bool.and_eq_true, decide_eq_true_eq]
      at stops
    have same : k = key := stops.2
    exact absurd (short sl k hr) (by rw [same, long]; exact lt_irrefl _)

/-- The scan of a block finds no slot holding a key of `MaxKeyLength` octets. -/
theorem scanBlock_long_key (b : Block) (i : Nat) : scanBlock read h key b ≠ .found i := by
  unfold scanBlock
  split
  · simp
  · rename_i j hj
    obtain ⟨lt, stops, -⟩ := List.findIdx?_eq_some_iff_getElem.mp hj
    rw [Block.slot, List.getD_eq_getElem?_getD, List.getElem?_eq_getElem lt, Option.getD_some]
    rcases stops_long_key short long stops with free | fail
    · simp [free]
    · split <;> simp [fail]

/-- On a block whose occupied slots all read, the scan for a key of `MaxKeyLength` octets passes
the block or stops at a free slot. -/
theorem scanBlock_long_key_of_reads {b : Block} (reads : ∀ sl ∈ b.occupied, read sl ≠ none) :
    scanBlock read h key b = .pass ∨ scanBlock read h key b = .free := by
  cases hsb : scanBlock read h key b with
  | pass => exact .inl rfl
  | free => exact .inr rfl
  | failed =>
    obtain ⟨x, m, fail⟩ := scanBlock_failed hsb
    exact absurd fail (reads x m)
  | found i => exact absurd hsb (scanBlock_long_key short long b i)

end

variable (E : Env) {key : Bytes}

/-- `Get` of a key of `MaxKeyLength` octets returns `nil`, in every state, unless it fails. -/
theorem get_long_key (db : HashDB) (long : key.length = maxKeyLength) {v : Option Bytes}
    (h : db.get E key = some v) : v = none := by
  unfold HashDB.get at h
  split at h
  · refine forEachBlock_preserves (fun ret : Option (Option Bytes) => ∀ v, ret = some v → v = none)
      (fun ret loc b hr => ?_) (fun _ h => (Option.some.inj h).symm) (Option.join_eq_some.mp h) v rfl
    unfold getBlock
    split
    · exact hr
    · exact hr
    · exact fun _ h => nomatch h
    · exact absurd ‹_› (scanBlock_long_key (readKeyValue_short db.data) long b _)
  · exact (Option.some.inj h).symm

/-- `Has` of a key of `MaxKeyLength` octets returns `false`, in every state, unless it fails. -/
theorem has_long_key (db : HashDB) (long : key.length = maxKeyLength) {found : Bool}
    (h : db.has E key = some found) : found = false := by
  unfold HashDB.has at h
  split at h
  · refine forEachBlock_preserves (fun f : Option Bool => ∀ v, f = some v → v = false)
      (fun f loc b hf => ?_) (fun _ h => (Option.some.inj h).symm) (Option.join_eq_some.mp h) found rfl
    unfold hasBlock
    split
    · exact hf
    · exact hf
    · exact fun _ h => nomatch h
    · exact absurd ‹_› (scanBlock_long_key (readKey_short db.data) long b _)
  · exact (Option.some.inj h).symm

/-! ## Puts into one block -/

/-- An index with one chain, of one block `b` whose slots' keys and values lie inside the data
file, and no hole in that file: a fresh one, and what puts of new keys into it leave. -/
structure SingleBlock (db : HashDB) (b : Block) : Prop where
  level : db.level = 0
  split : db.splitBlockIdx = 0
  noOverflow : db.data.blocks = []
  noHoles : db.data.freelist = []
  sized : 0 < db.data.size
  stored : db.readBlock E (HashDB.head E 0) = some b
  last : b.next = 0
  packed : b.Packed
  inside : ∀ sl ∈ b.occupied, 0 ≤ sl.kvOffset ∧ sl.kvOffset + sl.kvSize ≤ db.data.size

theorem fresh_singleBlock (hs : 0 < E.headerSize) : SingleBlock E (HashDB.fresh E) .zero where
  level := rfl
  split := rfl
  noOverflow := rfl
  noHoles := rfl
  sized := hs
  stored := by simp [HashDB.readBlock, HashDB.head, blockOffset, HashDB.fresh, mapGet]
  last := rfl
  packed := Block.zero_occupied.2
  inside := by simp [Block.zero_occupied.1]

variable {E}

theorem SingleBlock.chain {db : HashDB} {b : Block} (h : SingleBlock E db b) (hash : UInt32) :
    Linked (HashDB.head E (db.blockIndex hash)) [(HashDB.head E 0, b)] ∧ db.Stored E [(HashDB.head E 0, b)] ∧
      [(HashDB.head E 0, b)].length ≤ db.walkFuel := by
  rw [HashDB.blockIndex_level_zero h.level h.split]
  exact ⟨.last h.last, by simpa [HashDB.Stored] using h.stored, by simp [HashDB.walkFuel]⟩

/-- A `put` of a key of `MaxKeyLength` octets matches no slot: it takes the first free one and
counts one more key. -/
theorem SingleBlock.put_long {db : HashDB} {b : Block} (h : SingleBlock E db b) (long : key.length = maxKeyLength)
    (value : Bytes) (expiresAt : UInt32) (room : b.occupied.length < entriesPerBlock) (fresh : db.count ≠ maxKeys) :
    (db.put E (E.hashOf key) key value expiresAt).2 = none ∧ (db.put E (E.hashOf key) key value expiresAt).1.count = db.count + 1 ∧
      ∃ b', SingleBlock E (db.put E (E.hashOf key) key value expiresAt).1 b' ∧ b'.occupied.length = b.occupied.length + 1 := by
  obtain ⟨hl, hs, enough⟩ := h.chain (E.hashOf key)
  have miss : ∀ sl ∈ b.occupied, Stops db.data.readKey (E.hashOf key) key sl = false := fun sl m =>
    Bool.eq_false_iff.mpr fun stops => (stops_long_key (readKey_short db.data) long stops).elim
      (Block.used_of_mem_occupied m) (by simp [(DataFile.reads_of_inside (h.inside sl m)).1])
  rw [put_fill value expiresAt hl hs enough (show _ = [] ++ _ :: [] from rfl) (by simp) h.packed room miss fresh]
  have alloc : db.data.allocate (key.length + value.length) =
      ({ db.data with size := db.data.size + (key.length + value.length) }, (db.data.size : Int)) := by
    simp [DataFile.allocate, h.noHoles, takeHole]
  have read : ({ db with count := db.count + 1, data := (db.data.writeKeyValue key value).1 } : HashDB).readBlock E =
      db.readBlock E := HashDB.readBlock_of_eq rfl (by simp [DataFile.writeKeyValue, alloc, h.noOverflow])
  have used : (⟨E.hashOf key, key.length.toUInt16, value.length.toUInt32, expiresAt,
      (db.data.writeKeyValue key value).2⟩ : Slot).kvOffset ≠ 0 := by
    have := h.sized
    simp [DataFile.writeKeyValue, alloc]
    omega
  obtain ⟨occ, packed⟩ := Block.occupied_fill h.packed room used
  refine ⟨rfl, by simp, _, ⟨?_, ?_, ?_, ?_, ?_, ?_, by simpa using h.last, packed, ?_⟩, by simp [occ]⟩
  · simpa using h.level
  · simpa using h.split
  · simp [HashDB.head, DataFile.writeKeyValue, alloc, h.noOverflow]
  · simp [HashDB.head, DataFile.writeKeyValue, alloc, h.noHoles]
  · simp only [HashDB.head, HashDB.writeBlock_index_data, DataFile.writeKeyValue, alloc]
    exact Nat.lt_add_right _ h.sized
  · exact HashDB.readBlock_writeBlock_self _ _ (by rw [read, h.stored]; rfl)
  · have sizes : key.length.toUInt16.toNat + value.length.toUInt32.toNat ≤ key.length + value.length :=
      Nat.add_le_add (Nat.mod_le _ _) (Nat.mod_le _ _)
    rw [occ]
    intro sl m
    rcases List.mem_append.mp m with m | m
    · have := h.inside sl m
      simp only [HashDB.head, HashDB.writeBlock_index_data, DataFile.writeKeyValue, alloc]
      omega
    · obtain rfl := List.mem_singleton.mp m
      simp only [HashDB.head, HashDB.writeBlock_index_data, DataFile.writeKeyValue, alloc, Slot.kvSize]
      omega

/-- On one block, `Get` and `Has` of a key of `MaxKeyLength` octets walk the block, read every
key they compare, and return `nil` and `false`. -/
theorem SingleBlock.lookup_long {db : HashDB} {b : Block} (h : SingleBlock E db b) (long : key.length = maxKeyLength) :
    db.get E key = some none ∧ db.has E key = some false := by
  obtain ⟨hl, hs, enough⟩ := h.chain (E.hashOf key)
  have reads := fun sl m => DataFile.reads_of_inside (h.inside sl m)
  constructor
  · unfold HashDB.get
    split
    · rw [forEachBlock_of_linked hl hs enough]
      rcases scanBlock_long_key_of_reads (h := E.hashOf key) (b := b) (readKeyValue_short db.data) long fun sl m => by simp [(reads sl m).2]
        with scan | scan <;> simp [foldStop, getBlock, scan]
    · rfl
  · unfold HashDB.has
    split
    · rw [forEachBlock_of_linked hl hs enough]
      rcases scanBlock_long_key_of_reads (h := E.hashOf key) (b := b) (readKey_short db.data) long fun sl m => by simp [(reads sl m).1]
        with scan | scan <;> simp [foldStop, hasBlock, scan]
    · rfl

/-- `n` puts of a key of `MaxKeyLength` octets into a block with room for them: each succeeds
and takes a slot of its own. -/
theorem SingleBlock.run_puts (long : key.length = maxKeyLength) (value : Bytes) (expiresAt : UInt32) :
    ∀ (n : Nat) {db : HashDB} {b : Block}, SingleBlock E db b → b.occupied.length + n ≤ entriesPerBlock →
      db.count.toNat = b.occupied.length →
      (db.run E (List.replicate n (.put (E.hashOf key) key value expiresAt))).2 = List.replicate n none ∧
        ∃ b', SingleBlock E (db.run E (List.replicate n (.put (E.hashOf key) key value expiresAt))).1 b' ∧
          (db.run E (List.replicate n (.put (E.hashOf key) key value expiresAt))).1.count.toNat = b'.occupied.length ∧
            b'.occupied.length = b.occupied.length + n
  | 0, db, b, h, _, count => ⟨rfl, b, h, count, rfl⟩
  | n + 1, db, b, h, room, count => by
    have fresh : db.count ≠ maxKeys := fun full => by
      have := Block.occupied_length_le b
      rw [full] at count
      simp [maxKeys, entriesPerBlock] at count this
      omega
    obtain ⟨ok, more, b', h', grown⟩ := h.put_long long value expiresAt (by omega) fresh
    have count' : (db.put E (E.hashOf key) key value expiresAt).1.count.toNat = b'.occupied.length := by
      rw [more, grown, toNat_succ_of_ne_maxKeys fresh, count]
    obtain ⟨errs, b'', h'', count'', grown'⟩ := run_puts long value expiresAt n h' (by omega) count'
    refine ⟨?_, b'', ?_, ?_, by omega⟩ <;> simpa [List.replicate_succ, HashDB.run, HashDB.step, ok]

/-- From a fresh index, `n` puts of one key of `MaxKeyLength` octets (`n` up to a block's slots)
all succeed, `Count()` is `n`, and `Get` and `Has` return `nil` and `false`. -/
theorem max_length_key_lost (E : Env) (hs : 0 < E.headerSize) (key value : Bytes) (expiresAt : UInt32)
    (long : key.length = maxKeyLength) (n : Nat) (few : n ≤ entriesPerBlock) :
    ((HashDB.fresh E).run E (List.replicate n (.put (E.hashOf key) key value expiresAt))).2 = List.replicate n none ∧
      ((HashDB.fresh E).run E (List.replicate n (.put (E.hashOf key) key value expiresAt))).1.count.toNat = n ∧
      ((HashDB.fresh E).run E (List.replicate n (.put (E.hashOf key) key value expiresAt))).1.get E key = some none ∧
      ((HashDB.fresh E).run E (List.replicate n (.put (E.hashOf key) key value expiresAt))).1.has E key = some false := by
  obtain ⟨errs, b, h, count, grown⟩ := SingleBlock.run_puts long value expiresAt n (fresh_singleBlock E hs)
    (by simpa [Block.zero_occupied.1] using few) (by rw [Block.zero_occupied.1]; rfl)
  simp only [Block.zero_occupied.1, List.length_nil, Nat.zero_add] at grown
  exact ⟨errs, count.trans grown, h.lookup_long long⟩

/-- A 512-octet header and blocks, one hash for every key, and a filter every hash passes. -/
def oneHashEnv : Env := ⟨512, 512, fun _ => 0, fun _ => true⟩

/-- A key of `MaxKeyLength` zero octets put twice: two keys counted, and `Get` returns `nil`. -/
theorem max_length_key_lost_twice :
    0 < oneHashEnv.headerSize ∧ (List.replicate 65536 (0 : UInt8)).length = maxKeyLength ∧ 2 ≤ entriesPerBlock ∧
      ((HashDB.fresh oneHashEnv).run oneHashEnv (List.replicate 2
        (.put (oneHashEnv.hashOf (List.replicate 65536 0)) (List.replicate 65536 0) [1] 0))).1.count.toNat = 2 ∧
      ((HashDB.fresh oneHashEnv).run oneHashEnv (List.replicate 2
        (.put (oneHashEnv.hashOf (List.replicate 65536 0)) (List.replicate 65536 0) [1] 0))).1.get oneHashEnv
          (List.replicate 65536 0) = some none :=
  have lost := max_length_key_lost oneHashEnv (by decide) (List.replicate 65536 0) [1] 0 (List.length_replicate _ _) 2
    (by decide)
  ⟨by decide, List.length_replicate _ _, by decide, lost.2.1, lost.2.2.1⟩

end UnitDB.Guarantees.LinearHashLookup
