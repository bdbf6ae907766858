import UnitDB.Source.TraceDB
import UnitDB.Source.LinearHashChains

/-!
# The first index's load-factor test

`PutEntry` of the first index (db.go:536) ends with

    if float64(db.count)/float64(db.nBlocks*entriesPerBlock) > loadFactor { db.split() }

where `db.nBlocks*entriesPerBlock` is a product of `uint32`s. `DB.overLoadFactor` is that test
on doubles, exactly (`loadAbove`).

* While `22 · nBlocks < 2^32` the test is the true load factor, `count / (22 · nBlocks) > 7/10`
  (`overLoadFactor_iff`): below `2^53`, rounding the quotient changes no comparison with
  `loadFactor` (`loadAbove_iff`).
* From `Open`, a run of `PutEntry` calls of new ids keeps every chain one block of the index file
  with its slots in front (`Shape`), so each call counts one more key and never needs an overflow
  block, and the test keeps `nBlocks` the least number of blocks with `10 · count ≤ 154 · nBlocks`
  (`Counters`, `Run.putEntry`, `Run.after_calls`).
* That ends at `nBlocks = 195225787`, the first number of blocks whose product with 22 passes
  `2^32`. The run reaches it after 3006477105 puts, below `MaxKeys`; the product is then 18 on
  `uint32`, and the next put splits although its load factor is below 0.7
  (`split_trigger_wraps`).

The salted hash is not in `src/`: `keyedEnv` takes an id's first four octets for it, and the
run's ids hash to the chain that is newest when they are put.
-/

set_option autoImplicit false

namespace UnitDB.Guarantees.TraceDBSplitTrigger
open UnitDB.Source UnitDB.Source.TraceDB
open UnitDB.Source.LinearHash (Loc HashDB entriesPerBlock maxKeys shl1 takeHole toNat_succ_of_ne_maxKeys)

/-! ## The test -/

/-- Below `2^53` the double test is the exact one, `count / product > 7/10`. -/
theorem loadAbove_iff {c p : Nat} (pos : 0 < p) (lt : p < 2 ^ 53) : loadAbove c p = true ↔ 7 * p < 10 * c := by
  simp only [loadAbove, Nat.pos_iff_ne_zero.mp pos, if_false, decide_eq_true_eq]
  omega

/-- `nBlocks*entriesPerBlock` on `uint32`. -/
theorem product_toNat (n : UInt32) : (n * UInt32.ofNat entriesPerBlock).toNat = n.toNat * 22 % 2 ^ 32 :=
  BitVec.toNat_mul _ _

/-- Where `nBlocks*entriesPerBlock` does not wrap, the test is the true load factor. -/
theorem overLoadFactor_iff (db : DB) (pos : 0 < db.nBlocks.toNat) (fits : db.nBlocks.toNat * 22 < 2 ^ 32) :
    db.overLoadFactor = true ↔ 154 * db.nBlocks.toNat < 10 * db.count.toNat := by
  rw [DB.overLoadFactor, product_toNat, Nat.mod_eq_of_lt fits, loadAbove_iff (by omega) (by omega)]
  omega

/-! ## The directory -/

/-- The counters of a first-index `DB` as a second-index `HashDB`: the two indexes' `blockIndex`
and the step of their `split`s on the counters are the same code. -/
def directory (db : DB) : HashDB := ⟨db.level, db.count, db.nBlocks, db.splitBlockIdx, ⟨0, []⟩, ⟨0, [], [], []⟩⟩

/-- A second index's environment: `grow` reads none of it for the counters. -/
def hashEnv : LinearHash.Env := ⟨0, 0, fun _ => 0, fun _ => false⟩

/-- A hash below `2 ^ level + splitBlockIdx` is its own chain. -/
theorem blockIndex_self {db : DB} (lv : db.level.toNat < 32) {h : UInt32}
    (lt : h.toNat < 2 ^ db.level.toNat + db.splitBlockIdx.toNat) (sp : db.splitBlockIdx.toNat < 2 ^ db.level.toNat) :
    db.blockIndex h = h := by
  apply UInt32.toNat.inj
  have up : h.toNat % 2 ^ (db.level.toNat + 1) = h.toNat := Nat.mod_eq_of_lt (by rw [Nat.pow_succ]; omega)
  show ((directory db).blockIndex h).toNat = _
  rw [HashDB.blockIndex_toNat _ h lv]
  dsimp only [directory]
  rcases Nat.lt_or_ge h.toNat (2 ^ db.level.toNat) with low | high
  · rw [Nat.mod_eq_of_lt low]
    split_ifs <;> simp only [up]
  · have down : h.toNat % 2 ^ db.level.toNat = h.toNat - 2 ^ db.level.toNat := by
      rw [Nat.mod_eq_sub_mod high, Nat.mod_eq_of_lt (by omega)]
    rw [down, if_pos (by exact Nat.sub_lt_left_of_lt_add high lt), up]

/-- `grow` adds one chain: `2 ^ level + splitBlockIdx` goes up by one. -/
theorem grow_adds_chain (E : Env) {db : DB} (lv : db.level.toNat < 32) (sp : db.splitBlockIdx.toNat < 2 ^ db.level.toNat) :
    2 ^ (db.grow E).level.toNat + (db.grow E).splitBlockIdx.toNat =
        2 ^ db.level.toNat + db.splitBlockIdx.toNat + 1 ∧
      (db.grow E).splitBlockIdx.toNat < 2 ^ (db.grow E).level.toNat :=
  @HashDB.grow_counters hashEnv (directory db) lv sp

/-! ## The run -/

/-- The salted hash of an id is its first four octets, a little-endian `uint32`; the filter has
no false positives; topics have no parts. -/
def keyedEnv : Env := ⟨512, 4096, fun id => UInt32.ofNat (readUint32 id), fun _ => false, fun _ => []⟩

/-- The id the run puts `c`-th into chain `j`: it hashes to `j` and carries `c`; 16 octets, as a
`message.ID`. -/
def idOf (j c : Nat) : Bytes := putUint32 j ++ (putUint32 c ++ List.replicate 8 0)

theorem hashOf_idOf (j c : Nat) : keyedEnv.hashOf (idOf j c) = UInt32.ofNat j := by
  simp only [keyedEnv, idOf, readUint32_putUint32]
  apply UInt32.toNat.inj
  exact Nat.mod_mod _ _

/-- Ids of different counts differ. -/
theorem idOf_ne {j c c' : Nat} (lt : c < c') (lt' : c' < 2 ^ 32) : idOf j c' ≠ idOf j c := by
  intro same
  have h := congrArg (fun id => readUint32 (id.drop 4)) same
  simp only [idOf, List.drop_left' (putUint32_length j), readUint32_putUint32] at h
  omega

/-- The run's next call: a new id for the newest chain, the value `[1]`, no topic, no expiry, no
failing call. -/
def nextCall (db : DB) : EntryCall :=
  ⟨[], 0, [], idOf (db.nBlocks.toNat - 1) db.count.toNat, [1], 0, ⟨none, none, none, none⟩⟩

/-- The first `n` calls of the run from `db`, each with the next id of the state the calls before
it leave. -/
def nextCalls : Nat → DB → List EntryCall
  | 0, _ => []
  | n + 1, db => nextCall db :: nextCalls n (db.putEntry keyedEnv (nextCall db)).1

/-! ## One block per chain -/

/-- Where block `j` of the index file starts. -/
def offset (j : Nat) : Int := 512 + 4096 * (j : Int)

theorem ofNat_toNat (u : UInt32) : UInt32.ofNat u.toNat = u :=
  UInt32.toNat.inj (Nat.mod_eq_of_lt u.toBitVec.isLt)

theorem head_keyed (i : UInt32) : DB.head keyedEnv i = .index (offset i.toNat) := rfl

/-- Block `j` of the index file as `readBlock` returns it: a block never written reads as
zeros. -/
def chainOf (db : DB) (j : Nat) : Block := (mapGet db.index.blocks (offset j)).getD .zero

theorem offset_ne {i j : Nat} (ne : i ≠ j) : offset i ≠ offset j := by
  unfold offset
  omega

/-- A block written at `offset j` is block `j`, and no other. -/
theorem getD_offset_mapSet (blocks : List (Int × Block)) {j : Nat} (b : Block) (i : Nat) :
    (mapGet (mapSet blocks (offset j) b) (offset i)).getD .zero =
      if i = j then b else (mapGet blocks (offset i)).getD .zero := by
  split_ifs with same
  · rw [same, mapGet_mapSet_self]
    rfl
  · rw [mapGet_mapSet_ne _ _ (offset_ne (Ne.symm same))]

/-- Block `b` holds `occ` in its first slots, free slots after them, and ends its chain. -/
structure Holds (b : Block) (occ : List Slot) : Prop where
  entries : b.entries = occ ++ List.replicate (entriesPerBlock - occ.length) .free
  last : b.next = 0

theorem Holds.zero : Holds .zero [] := ⟨rfl, rfl⟩

theorem Holds.length_le {b : Block} {occ : List Slot} (hb : Holds b occ) : occ.length ≤ entriesPerBlock := by
  have := congrArg List.length hb.entries
  rw [b.full, List.length_append] at this
  omega

/-- Two blocks that hold the same slots are one block. -/
theorem Holds.unique {b b' : Block} {occ : List Slot} (hb : Holds b occ) (hb' : Holds b' occ) : b = b' := by
  obtain ⟨e, n, _⟩ := b
  obtain ⟨e', n', _⟩ := b'
  cases hb.entries.trans hb'.entries.symm
  cases hb.last.trans hb'.last.symm
  rfl

/-- Setting the first free slot. -/
theorem Holds.set {b : Block} {occ : List Slot} (hb : Holds b occ) (room : occ.length < entriesPerBlock) (sl : Slot) :
    Holds (b.set occ.length sl) (occ ++ [sl]) := by
  refine ⟨?_, hb.last⟩
  obtain ⟨m, hm⟩ : ∃ m, entriesPerBlock - occ.length = m + 1 := ⟨_, (Nat.succ_pred_eq_of_pos (by omega)).symm⟩
  have : entriesPerBlock - (occ ++ [sl]).length = m := by simp only [List.length_append, List.length_singleton]; omega
  simp only [Block.set, hb.entries, hm, this, List.set_append_right _ _ (Nat.le_refl _), Nat.sub_self,
    List.replicate_succ, List.set_cons_zero, List.append_assoc, List.singleton_append]

/-- The first free slot of a block is free. -/
theorem Holds.slot_length {b : Block} {occ : List Slot} (hb : Holds b occ) (room : occ.length < entriesPerBlock) :
    b.slot occ.length = .free := by
  simp only [Block.slot, hb.entries, List.getD_eq_getElem?_getD, List.getElem?_append_right (Nat.le_refl _),
    Nat.sub_self, List.getElem?_replicate, if_pos (Nat.sub_pos_of_lt room), Option.getD_some]

/-- Slot `sl` of chain `j`: it has the hash `j` and points, below the end of the data file, at the
record of an id of chain `j` put before the `count`-th. -/
structure Stored (data : DataFile) (count j : Nat) (sl : Slot) : Prop where
  hash : sl.hash = UInt32.ofNat j
  pos : 0 < sl.kvOffset
  below : sl.kvOffset < data.size
  record : ∃ c < count, mapGet data.records sl.kvOffset = some ⟨[], idOf j c, [1]⟩

/-- The states of the run, with the slots `cs j` of each chain `j`: the directory's counters as
`split` keeps them, the index file one block per chain, each chain one block holding its slots in
front, the data file grown by records only. -/
structure Shape (db : DB) (cs : Nat → List Slot) : Prop where
  level : db.level.toNat < 32
  split : db.splitBlockIdx.toNat < 2 ^ db.level.toNat
  nBlocks : db.nBlocks.toNat = 2 ^ db.level.toNat + db.splitBlockIdx.toNat
  indexSize : db.index.size = 512 + 4096 * db.nBlocks.toNat
  dataSize : 512 ≤ db.data.size
  freelist : db.data.freelist = []
  holds : ∀ j < db.nBlocks.toNat, Holds (chainOf db j) (cs j)
  stored : ∀ j < db.nBlocks.toNat, ∀ sl ∈ cs j, Stored db.data db.count.toNat j sl

/-- Block `j` of an index file of `n` blocks reads as chain `j`. -/
theorem readBlock_chain {db : DB} {n j : Nat} (size : db.index.size = 512 + 4096 * n) (lt : j < n) :
    db.readBlock keyedEnv (.index (offset j)) = some (chainOf db j) := by
  have : offset j + (keyedEnv.blockSize : Int) ≤ (db.index.size : Int) := by
    rw [size, offset]
    push_cast [keyedEnv]
    omega
  exact if_pos this

/-- The shape does not look at the trie. -/
theorem Shape.with_trie {db : DB} {cs : Nat → List Slot} (sh : Shape db cs) (trie : TopicTrie.Trie) :
    Shape { db with trie } cs :=
  ⟨sh.level, sh.split, sh.nBlocks, sh.indexSize, sh.dataSize, sh.freelist, sh.holds, sh.stored⟩

theorem fresh_shape : Shape (DB.fresh keyedEnv) fun _ => [] :=
  ⟨by decide, by decide, by decide, rfl, Nat.le_refl _, rfl, fun _ _ => Holds.zero,
    fun _ _ _ h => absurd h (List.not_mem_nil _)⟩

/-! ## The run's put -/

section Walk
variable {σ : Type} {db : DB} {cb : σ → Loc → Block → σ × Bool × Option Error} {fuel : Nat} {loc : Loc}
  {s s' : σ} {b : Block}

/-- A walk whose callback stops at the first block. -/
theorem forEachBlock_stop (read : db.readBlock keyedEnv loc = some b) {e : Option Error} (stop : cb s loc b = (s', true, e)) :
    db.forEachBlock keyedEnv cb (fuel + 1) loc s = some (s', e) := by
  simp only [DB.forEachBlock, read, stop, Bool.true_or, if_true]

/-- A walk of one block that ends its chain. -/
theorem forEachBlock_last (read : db.readBlock keyedEnv loc = some b) (go : cb s loc b = (s', false, none))
    (last : b.next = 0) : db.forEachBlock keyedEnv cb (fuel + 1) loc s = some (s', none) := by
  simp only [DB.forEachBlock, read, go, last, Bool.false_or, Option.isSome_none, if_true]
  rfl

end Walk

/-- A slot of chain `j` is not where the run puts its next id. -/
theorem putSlot_stored {data : DataFile} {count j : Nat} {sl : Slot} (st : Stored data count j sl) (lt : count < 2 ^ 32) :
    putSlot data (UInt32.ofNat j) (idOf j count) sl = none := by
  obtain ⟨c, older, rec⟩ := st.record
  simp only [putSlot, Int.ne_of_gt st.pos, st.hash, DataFile.readKey, rec, idOf_ne older lt, if_false, if_true]

/-- `put` stops at the first free slot of a block whose slots before it hold other keys. -/
theorem putBlock_free {io : PutIO} {h : UInt32} {key : Bytes} {s : PutScan} {loc : Loc} {b : Block}
    {occ : List Slot} (hb : Holds b occ) (room : occ.length < entriesPerBlock)
    (miss : ∀ sl ∈ occ, putSlot s.data h key sl = none) :
    putBlock keyedEnv io h key s loc b = ({ s with b := (loc, b), entryIdx := occ.length }, true, none) := by
  have first : b.entries.findIdx? (fun sl => (putSlot s.data h key sl).isSome) = some occ.length := by
    rw [hb.entries, List.findIdx?_append, List.findIdx?_eq_none_iff.mpr fun sl m => by simp [miss sl m],
      List.findIdx?_replicate, if_pos ⟨Nat.sub_pos_of_lt room, rfl⟩]
    simp
  simp only [putBlock, first, hb.slot_length room]
  rfl

/-- The slot the run's put writes into chain `j`: the chain's hash, no topic, a value of one
octet, no expiry, the record at the old end of the data file. -/
def newSlot (db : DB) (j : Nat) : Slot := ⟨UInt32.ofNat j, 0, 1, 0, db.data.size⟩

/-- The state the run's put into slot `k` of chain `j` leaves: one more key, its record at the old
end of the data file, its slot written, its hash in the filter. -/
def putNew (db : DB) (j k : Nat) : DB :=
  { db with
    count := db.count + 1,
    data := { db.data with
      size := db.data.size + 17,
      records := mapSet db.data.records db.data.size ⟨[], idOf j db.count.toNat, [1]⟩ },
    index := { db.index with blocks := mapSet db.index.blocks (offset j) ((chainOf db j).set k (newSlot db j)) },
    filter := db.filter ++ [(UInt32.ofNat j).toUInt64] }

/-- The run's put into chain `j`, whose block has room: the id is new, and goes to the first free
slot. -/
theorem Shape.put_eq {db : DB} {cs : Nat → List Slot} (sh : Shape db cs) {j : Nat} (lt : j < db.nBlocks.toNat)
    (room : (cs j).length < entriesPerBlock) (nf : db.count ≠ maxKeys) :
    db.put keyedEnv ⟨none, none, none, none⟩ [] (idOf j db.count.toNat) [1] 0 = (putNew db j (cs j).length, none) := by
  have hj : (UInt32.ofNat j).toNat = j :=
    Nat.mod_eq_of_lt (Nat.lt_trans lt (show db.nBlocks.toNat < 2 ^ 32 from db.nBlocks.toBitVec.isLt))
  have idx : db.blockIndex (UInt32.ofNat j) = UInt32.ofNat j :=
    blockIndex_self sh.level (by rw [hj, ← sh.nBlocks]; exact lt) sh.split
  have miss := fun sl m => putSlot_stored (sh.stored j lt sl m) db.count.toBitVec.isLt
  unfold DB.put
  rw [hashOf_idOf, idx, head_keyed, hj, DB.walkFuel,
    forEachBlock_stop (readBlock_chain sh.indexSize lt) (putBlock_free (sh.holds j lt) room miss)]
  simp [DB.putAt, (sh.holds j lt).slot_length room, Slot.free, nf, DB.writeBlockIO, DB.writeBlock, DataFile.writeKeyValue,
    DataFile.allocate, sh.freelist, takeHole, idOf, putNew, newSlot]
  rfl

/-- A record appended at the end of the data file keeps every stored slot where it was. -/
theorem Stored.append {data : DataFile} {count i c : Nat} {sl : Slot} (st : Stored data count i sl) (r : Record) :
    Stored { data with size := data.size + 17, records := mapSet data.records data.size r } (count + c) i sl := by
  obtain ⟨c', older, rec⟩ := st.record
  have below := st.below
  refine ⟨st.hash, st.pos, by push_cast; omega, c', by omega, ?_⟩
  rw [mapGet_mapSet_ne _ _ (Int.ne_of_gt st.below), rec]

/-- The slot the run's put writes is stored: it points at the record appended. -/
theorem stored_newSlot {db : DB} (j : Nat) (size : 512 ≤ db.data.size) :
    Stored { db.data with
        size := db.data.size + 17,
        records := mapSet db.data.records db.data.size ⟨[], idOf j db.count.toNat, [1]⟩ }
      (db.count.toNat + 1) j (newSlot db j) :=
  ⟨rfl, by simp only [newSlot]; omega, by simp only [newSlot]; push_cast; omega, _, Nat.lt_succ_self _,
    mapGet_mapSet_self _ _ _⟩

/-- The run's put keeps the shape, with the new slot after the chain's others. -/
theorem Shape.after_put {db : DB} {cs : Nat → List Slot} (sh : Shape db cs) {j : Nat} (lt : j < db.nBlocks.toNat)
    (room : (cs j).length < entriesPerBlock) (nf : db.count ≠ maxKeys) :
    Shape (putNew db j (cs j).length) (Function.update cs j (cs j ++ [newSlot db j])) := by
  have count : (putNew db j (cs j).length).count.toNat = db.count.toNat + 1 := toNat_succ_of_ne_maxKeys nf
  refine ⟨sh.level, sh.split, sh.nBlocks, sh.indexSize, Nat.le_add_right_of_le sh.dataSize, sh.freelist,
    fun i li => ?_, fun i li sl m => ?_⟩
  · simp only [chainOf, putNew, getD_offset_mapSet]
    by_cases same : i = j
    · subst same
      simp only [if_true, Function.update_same]
      exact (sh.holds i li).set room _
    · simp only [same, if_false, Function.update_noteq same]
      exact sh.holds i li
  · rw [count]
    by_cases same : i = j
    · subst same
      rw [Function.update_same, List.mem_append, List.mem_singleton] at m
      rcases m with old | rfl
      · exact (sh.stored i li sl old).append _
      · exact stored_newSlot i sh.dataSize
    · rw [Function.update_noteq same] at m
      exact (sh.stored i li sl m).append _

/-! ## The run's split -/

theorem insert_room {w : EntryWriter} (room : w.slotIdx ≠ entriesPerBlock) (data : DataFile) (sl : Slot) :
    w.insert keyedEnv data sl = (⟨w.done, (w.cur.1, w.cur.2.set w.slotIdx sl), w.slotIdx + 1⟩, data) :=
  if_neg room

/-- Slots that the grown directory keeps in the split chain fill the updated writer's block in
order, with no overflow block while they fit. -/
theorem foldl_routeSlot {grown : DB} {u : UInt32} {loc : Loc} :
    ∀ (occ pre : List Slot) (b : Block) (s : SplitScan), (∀ sl ∈ occ, grown.blockIndex sl.hash = u) →
      s.updated = ⟨[], (loc, b), pre.length⟩ → Holds b pre → pre.length + occ.length ≤ entriesPerBlock →
      ∃ b', Holds b' (pre ++ occ) ∧
        occ.foldl (routeSlot keyedEnv grown u) s = { s with updated := ⟨[], (loc, b'), pre.length + occ.length⟩ }
  | [], pre, b, ⟨_, _, _⟩, _, hu, hb, _ => ⟨b, by rw [List.append_nil]; exact hb, by cases hu; rfl⟩
  | sl :: rest, pre, b, s, keep, hu, hb, fit => by
    have room : pre.length < entriesPerBlock := by rw [List.length_cons] at fit; omega
    have step : routeSlot keyedEnv grown u s sl =
        { s with updated := ⟨[], (loc, b.set pre.length sl), (pre ++ [sl]).length⟩ } := by
      have ins := insert_room (w := ⟨[], (loc, b), pre.length⟩) (Nat.ne_of_lt room) s.data sl
      simp only [routeSlot, keep sl (List.mem_cons_self _ _), if_true, hu, ins, List.length_append,
        List.length_singleton]
    obtain ⟨b', hb', fold⟩ := foldl_routeSlot rest (pre ++ [sl]) _
      { s with updated := ⟨[], (loc, b.set pre.length sl), (pre ++ [sl]).length⟩ }
      (fun x m => keep x (List.mem_cons_of_mem _ m)) rfl (hb.set room sl)
      (by simp only [List.length_append, List.length_singleton, List.length_cons, List.length_nil] at fit ⊢; omega)
    refine ⟨b', by rwa [List.append_assoc, List.singleton_append] at hb', ?_⟩
    have len : (pre ++ [sl]).length + rest.length = pre.length + (sl :: rest).length := by
      simp only [List.length_append, List.length_cons, List.length_nil]
      omega
    rw [List.foldl_cons, step, fold, len]

/-- `split`'s callback on the split chain's block: every slot back into the updated writer's block
as it was, nothing into the new chain's, and the walk goes on. -/
theorem splitBlock_chain {grown : DB} {u : UInt32} {b : Block} {occ : List Slot} (hb : Holds b occ)
    (occupied : ∀ sl ∈ occ, sl.kvOffset ≠ 0) (keep : ∀ sl ∈ occ, grown.blockIndex sl.hash = u) (loc loc' : Loc)
    (created : EntryWriter) (data : DataFile) :
    splitBlock keyedEnv grown u ⟨.start loc, created, data⟩ loc' b =
      (⟨⟨[], (loc, b), occ.length⟩, created, data⟩, false, none) := by
  have taken : b.entries.takeWhile (·.kvOffset ≠ 0) = occ := by
    rw [hb.entries, List.takeWhile_append_of_pos (by simpa using occupied), List.takeWhile_replicate]
    simp [Slot.free]
  obtain ⟨b', hb', fold⟩ := foldl_routeSlot occ [] .zero ⟨.start loc, created, data⟩ keep rfl Holds.zero
    (by simpa using hb.length_le)
  rw [splitBlock, taken, fold, hb.unique (by simpa using hb')]
  simp [EntryWriter.start]

/-- What `split` leaves on a state of the run: the directory grown, the new chain's block zeros at
the old end of the index file, the split chain's block written back as it was, one more block. -/
def splitNew (db : DB) : DB :=
  { db.grow keyedEnv with
    nBlocks := db.nBlocks + 1,
    index := { (db.grow keyedEnv).index with
      blocks := mapSet (mapSet db.index.blocks (offset db.nBlocks.toNat) .zero) (offset db.splitBlockIdx.toNat)
        (chainOf db db.splitBlockIdx.toNat) } }

/-- `split`'s `grow` on a state of the run: the split chain is an old one, and the grown counters
make one more chain, below level 32. -/
theorem Shape.grow_counters {db : DB} {cs : Nat → List Slot} (sh : Shape db cs) (fits : db.nBlocks.toNat + 1 < 2 ^ 32) :
    db.splitBlockIdx.toNat < db.nBlocks.toNat ∧ (db.grow keyedEnv).level.toNat < 32 ∧
      (db.grow keyedEnv).splitBlockIdx.toNat < 2 ^ (db.grow keyedEnv).level.toNat ∧
      2 ^ (db.grow keyedEnv).level.toNat + (db.grow keyedEnv).splitBlockIdx.toNat = db.nBlocks.toNat + 1 := by
  have pos := Nat.two_pow_pos db.level.toNat
  have nb := sh.nBlocks
  obtain ⟨grown, below⟩ := grow_adds_chain keyedEnv sh.level sh.split
  have room : 2 ^ db.level.toNat + db.splitBlockIdx.toNat + 1 < 2 ^ 32 := by omega
  exact ⟨by omega, @HashDB.grow_level_lt hashEnv (directory db) sh.level sh.split room, below, by omega⟩

/-- The run's split: chain `splitBlockIdx` keeps its slots, whose hash the grown directory still
sends there, and the new chain is empty. -/
theorem Shape.split_eq {db : DB} {cs : Nat → List Slot} (sh : Shape db cs) (fits : db.nBlocks.toNat + 1 < 2 ^ 32) :
    db.split keyedEnv = (splitNew db, none) := by
  obtain ⟨lk, lv, below, grown⟩ := sh.grow_counters fits
  have back : ∀ sl ∈ cs db.splitBlockIdx.toNat, (db.grow keyedEnv).blockIndex sl.hash = db.splitBlockIdx := by
    intro sl m
    rw [(sh.stored _ lk sl m).hash, ofNat_toNat]
    exact blockIndex_self lv (by omega) below
  have read : (db.grow keyedEnv).readBlock keyedEnv (.index (offset db.splitBlockIdx.toNat)) =
      some (chainOf db db.splitBlockIdx.toNat) :=
    readBlock_chain (n := db.nBlocks.toNat + 1) (by simp only [DB.grow, sh.indexSize, keyedEnv]; omega) (by omega)
  have hb := sh.holds _ lk
  rw [DB.split, DB.walkFuel, head_keyed, forEachBlock_last read
    (splitBlock_chain hb (fun sl m => Int.ne_of_gt (sh.stored _ lk sl m).pos) back _ _ _ _) hb.last]
  simp [DB.splitAt, EntryWriter.blocks, EntryWriter.start, DB.writeBlock, splitNew, sh.indexSize, offset, DB.grow]

theorem splitNew_nBlocks {db : DB} (fits : db.nBlocks.toNat + 1 < 2 ^ 32) :
    (splitNew db).nBlocks.toNat = db.nBlocks.toNat + 1 := by
  have : (db.nBlocks + 1).toNat = (db.nBlocks.toNat + 1) % 2 ^ 32 := BitVec.toNat_add _ _
  show (db.nBlocks + 1).toNat = _
  omega

/-- The run's split keeps the shape, with the new chain empty. -/
theorem Shape.after_split {db : DB} {cs : Nat → List Slot} (sh : Shape db cs) (fits : db.nBlocks.toNat + 1 < 2 ^ 32) :
    Shape (splitNew db) (Function.update cs db.nBlocks.toNat []) := by
  obtain ⟨lk, lv, below, grown⟩ := sh.grow_counters fits
  have nb := splitNew_nBlocks fits
  refine ⟨lv, below, by rw [nb]; exact grown.symm, by rw [nb]; show db.index.size + 4096 = _; rw [sh.indexSize]; omega,
    sh.dataSize, sh.freelist, fun i li => ?_, fun i li sl m => ?_⟩ <;> rw [nb] at li
  · simp only [chainOf, splitNew, DB.grow, getD_offset_mapSet]
    by_cases hk : i = db.splitBlockIdx.toNat
    · rw [if_pos hk, hk, Function.update_noteq (Nat.ne_of_lt lk)]
      exact sh.holds _ lk
    · by_cases hn : i = db.nBlocks.toNat
      · rw [if_neg hk, if_pos hn, hn, Function.update_same]
        exact Holds.zero
      · rw [if_neg hk, if_neg hn, Function.update_noteq hn]
        exact sh.holds i (by omega)
  · by_cases hn : i = db.nBlocks.toNat
    · rw [hn, Function.update_same] at m
      exact absurd m (List.not_mem_nil _)
    · rw [Function.update_noteq hn] at m
      exact sh.stored i (by omega) sl m

/-! ## The counters -/

/-- The counters the run keeps: `nBlocks` is the least number of blocks, one at least, with
`10 · count ≤ 154 · nBlocks`, a load factor of at most 0.7. -/
structure Counters (count nBlocks : Nat) : Prop where
  load : 10 * count ≤ 154 * nBlocks
  least : nBlocks = 1 ∨ 154 * (nBlocks - 1) < 10 * count

/-- A put the test answers with a split. -/
theorem Counters.split {c n : Nat} (ctr : Counters c n) (over : 154 * n < 10 * (c + 1)) : Counters (c + 1) (n + 1) :=
  ⟨by have := ctr.load; omega, .inr (by omega)⟩

/-- A put the test lets be. -/
theorem Counters.stay {c n : Nat} (ctr : Counters c n) (under : ¬154 * n < 10 * (c + 1)) : Counters (c + 1) n :=
  ⟨by omega, by rcases ctr.least with one | least <;> omega⟩

/-- The states of the run: the shape, the counters, and a newest chain that cannot fill up before
the next split. -/
structure Run (db : DB) : Prop where
  shape : ∃ cs, Shape db cs ∧
    10 * (cs (db.nBlocks.toNat - 1)).length + 154 * db.nBlocks.toNat ≤ 10 * db.count.toNat + 154
  counters : Counters db.count.toNat db.nBlocks.toNat

theorem run_fresh : Run (DB.fresh keyedEnv) := ⟨⟨_, fresh_shape, by decide⟩, ⟨by decide, .inl rfl⟩⟩

/-- `PutEntry` once its put has succeeded: the trie always takes the id, and the test decides the
split. -/
theorem putEntry_of_put {E : Env} {db d : DB} {c : EntryCall}
    (put : { db with trie := (db.trie.add c.parts c.depth (E.hashOf c.id).toUInt64).1 }.put E c.io c.topic c.id c.value
      c.expiresAt = (d, none)) :
    db.putEntry E c = (if d.overLoadFactor then (d.split E).1 else d, none) := by
  simp only [DB.putEntry, TopicTrie.Trie.add, if_true] at put ⊢
  rw [put]

/-- The run's call on a state of the run: the new id goes to the first free slot of the newest
chain, then comes the split the test asks for. -/
theorem Run.putEntry_eq {db : DB} (run : Run db) (nf : db.count ≠ maxKeys) (fits : db.nBlocks.toNat + 1 < 2 ^ 32) :
    ∃ cs d, Shape d cs ∧ 10 * (cs (d.nBlocks.toNat - 1)).length + 154 * d.nBlocks.toNat ≤ 10 * d.count.toNat + 154 ∧
      d.count.toNat = db.count.toNat + 1 ∧ d.nBlocks = db.nBlocks ∧
      db.putEntry keyedEnv (nextCall db) = (if d.overLoadFactor then splitNew d else d, none) := by
  obtain ⟨⟨cs, sh, newest⟩, ctr⟩ := run
  have pos : 0 < db.nBlocks.toNat := by rw [sh.nBlocks]; exact Nat.lt_add_right _ (Nat.two_pow_pos _)
  have room : (cs (db.nBlocks.toNat - 1)).length < entriesPerBlock := by
    have := ctr.load
    show _ < 22
    omega
  let trie := (db.trie.add [] 0 (keyedEnv.hashOf (idOf (db.nBlocks.toNat - 1) db.count.toNat)).toUInt64).1
  have sh' := sh.with_trie trie
  let d := putNew { db with trie } (db.nBlocks.toNat - 1) (cs (db.nBlocks.toNat - 1)).length
  have last : db.nBlocks.toNat - 1 < db.nBlocks.toNat := by omega
  have sd : Shape d _ := sh'.after_put last room nf
  have count : d.count.toNat = db.count.toNat + 1 := toNat_succ_of_ne_maxKeys nf
  refine ⟨_, d, sd, ?_, count, rfl, ?_⟩
  · rw [count, show d.nBlocks = db.nBlocks from rfl, Function.update_same, List.length_append, List.length_singleton]
    omega
  · rw [putEntry_of_put (c := nextCall db) (sh'.put_eq last room nf)]
    split_ifs with over
    · rw [sd.split_eq fits]
    · rfl

/-- One call of the run while the product cannot wrap: a state of the run again, with one more
key. -/
theorem Run.putEntry {db : DB} (run : Run db) (early : db.count.toNat < 3006477105) :
    Run (db.putEntry keyedEnv (nextCall db)).1 ∧
      (db.putEntry keyedEnv (nextCall db)).1.count.toNat = db.count.toNat + 1 := by
  have ctr := run.counters
  have small : db.nBlocks.toNat ≤ 195225786 := by rcases ctr.least with one | least <;> omega
  have nf : db.count ≠ maxKeys := fun full => absurd early (by rw [full]; decide)
  obtain ⟨cs, d, sd, newest, count, nb, eq⟩ := run.putEntry_eq nf (by omega)
  have pos : 0 < d.nBlocks.toNat := by rw [sd.nBlocks]; exact Nat.lt_add_right _ (Nat.two_pow_pos _)
  have test := overLoadFactor_iff d pos (by rw [nb]; omega)
  rw [count, nb] at test
  rw [eq]
  split_ifs with over
  · have fits : d.nBlocks.toNat + 1 < 2 ^ 32 := by rw [nb]; omega
    have grown := splitNew_nBlocks fits
    have same : (splitNew d).count = d.count := rfl
    refine ⟨⟨⟨_, sd.after_split fits, ?_⟩, ?_⟩, count⟩ <;> rw [grown, same, count, nb]
    · rw [Nat.add_sub_cancel, Function.update_same, List.length_nil]
      have := test.mp over
      omega
    · exact ctr.split (test.mp over)
  · exact ⟨⟨⟨cs, sd, newest⟩, by rw [count, nb]; exact ctr.stay (mt test.mpr over)⟩, count⟩

/-- The run from a state of it, as long as the product cannot wrap: each call counts one key and
leaves a state of the run. -/
theorem Run.after_calls : ∀ (n : Nat) {db : DB}, Run db → db.count.toNat + n ≤ 3006477105 →
    Run (db.putEntries keyedEnv (nextCalls n db)) ∧
      (db.putEntries keyedEnv (nextCalls n db)).count.toNat = db.count.toNat + n
  | 0, _, run, _ => ⟨run, rfl⟩
  | n + 1, db, run, fit => by
    obtain ⟨run', count'⟩ := run.putEntry (by omega)
    obtain ⟨run'', count''⟩ := Run.after_calls n run' (by omega)
    exact ⟨run'', count''.trans (by omega)⟩

/-- The state of the run after 3006477105 calls: 195225787 blocks, whose product with 22 wraps to
18 on `uint32`; the next call counts its key and splits, its load factor below 0.7. -/
theorem Run.wrap {db : DB} (run : Run db) (reached : db.count.toNat = 3006477105) :
    db.count = 3006477105 ∧ db.nBlocks = 195225787 ∧ db.nBlocks * UInt32.ofNat entriesPerBlock = 18 ∧
      (db.putEntry keyedEnv (nextCall db)).2 = none ∧
      (db.putEntry keyedEnv (nextCall db)).1.count = db.count + 1 ∧
      10 * (db.putEntry keyedEnv (nextCall db)).1.count.toNat ≤ 7 * (db.nBlocks.toNat * entriesPerBlock) ∧
      (db.putEntry keyedEnv (nextCall db)).1.nBlocks = db.nBlocks + 1 := by
  have ctr := run.counters
  have nb : db.nBlocks.toNat = 195225787 := by have := ctr.load; rcases ctr.least with one | least <;> omega
  have count : db.count = 3006477105 := UInt32.toNat.inj reached
  have blocks : db.nBlocks = 195225787 := UInt32.toNat.inj nb
  have nf : db.count ≠ maxKeys := by rw [count]; decide
  obtain ⟨cs, d, -, -, dc, dn, eq⟩ := run.putEntry_eq nf (by omega)
  have over : d.overLoadFactor = true := by
    rw [DB.overLoadFactor, dc, dn, blocks, reached]
    decide
  rw [eq, if_pos over]
  refine ⟨count, blocks, by rw [blocks]; decide, rfl, UInt32.toNat.inj ?_, ?_, by rw [← dn]; rfl⟩
  · rw [toNat_succ_of_ne_maxKeys nf]
    exact dc
  · show 10 * d.count.toNat ≤ _
    rw [dc, nb, reached]
    decide

/-- The first index's split test is not the load factor on every reachable state: a run of
3006477105 `PutEntry` calls from `Open` reaches 195225787 blocks, below `MaxKeys` keys, where
`db.nBlocks*entriesPerBlock` wraps to 18; the next call counts its key and calls `split`, though
`count ≤ 0.7 · nBlocks · entriesPerBlock`. -/
theorem split_trigger_wraps :
    ∃ calls : List EntryCall, ∃ db : DB, (DB.fresh keyedEnv).putEntries keyedEnv calls = db ∧
      db.count = 3006477105 ∧ db.nBlocks = 195225787 ∧ db.nBlocks * UInt32.ofNat entriesPerBlock = 18 ∧
      (db.putEntry keyedEnv (nextCall db)).2 = none ∧
      (db.putEntry keyedEnv (nextCall db)).1.count = db.count + 1 ∧
      10 * (db.putEntry keyedEnv (nextCall db)).1.count.toNat ≤ 7 * (db.nBlocks.toNat * entriesPerBlock) ∧
      (db.putEntry keyedEnv (nextCall db)).1.nBlocks = db.nBlocks + 1 := by
  obtain ⟨run, count⟩ := Run.after_calls 3006477105 run_fresh (by decide)
  exact ⟨_, _, rfl, run.wrap count⟩

end UnitDB.Guarantees.TraceDBSplitTrigger
