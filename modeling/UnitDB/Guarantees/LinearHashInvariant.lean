import Mathlib.Algebra.BigOperators.Group.List
import UnitDB.Source.LinearHashLayout

/-!
# The representation invariant of the linear-hash index

`Inv E db chains` is the invariant of `db.go`'s index, with `chains` the blocks of its chains,
chain `i` starting at block `i` of the index file:

* (a) `nBlocks = 2 ^ level + splitBlockIdx` with `splitBlockIdx < 2 ^ level`, and the index
  file holds the header and `nBlocks` blocks; so `blockIndex` of every hash is a chain
  (`Inv.blockIndex_lt`);
* (b) every occupied slot of chain `i` has a hash whose `blockIndex` is `i`;
* (c) each chain is a finite list of blocks, each pointing to the next and stored where it is,
  no location in two places of the chains, so `forEachBlock` walks each chain to its end
  (`Inv.walk`); the holes, the overflow blocks and the keys and values of the occupied slots
  do not overlap in the data file (`Layout`);
* (d) `count` is the number of occupied slots, which are the first slots of each block.

It gives that every occupied slot's key and value read (`Inv.reads`). `put`, `Delete` and a
`split` that returns nil keep it (`Inv.put`, `Inv.delete`, `Inv.split`) as long as the level stays
below 32: a `split` whose walk, insert or write fails returns with the directory grown and
`nBlocks` as it was, and a `split` that returns nil did what it does when none of its calls can
fail (`split_eq_reliable`). The invariant does not hold beyond: `1 << 32` is 0 on `uint32`, and
after `2 ^ 32 - 1` splits from a fresh index `nBlocks` has wrapped to 0 (`splits_wrap_nBlocks`).
-/

set_option autoImplicit false

namespace UnitDB.Guarantees.LinearHashInvariant
open UnitDB.Source UnitDB.Source.LinearHash

/-- Where chain `i` starts: block `i` of the index file. -/
def headAt (E : Env) (i : Nat) : Loc := .index (E.headerSize + E.blockSize * i)

theorem head_eq_headAt (E : Env) (x : UInt32) : HashDB.head E x = headAt E x.toNat := rfl

/-- The representation invariant of the index, with `chains` the blocks of its chains. -/
structure Inv (E : Env) (db : HashDB) (chains : List (List (Loc × Block))) : Prop where
  level_lt : db.level.toNat < 32
  split_lt : db.splitBlockIdx.toNat < 2 ^ db.level.toNat
  nBlocks_eq : db.nBlocks.toNat = 2 ^ db.level.toNat + db.splitBlockIdx.toNat
  length_eq : chains.length = db.nBlocks.toNat
  index_size : db.index.size = E.headerSize + db.nBlocks.toNat * E.blockSize
  linked : ∀ i (h : i < chains.length), Linked (headAt E i) chains[i]
  stored : ∀ p ∈ chains.flatten, db.readBlock E p.1 = some p.2
  packed : ∀ p ∈ chains.flatten, p.2.Packed
  routed : ∀ i (h : i < chains.length), ∀ p ∈ chains[i], ∀ sl ∈ p.2.occupied, (db.blockIndex sl.hash).toNat = i
  layout : Layout E.headerSize db.data (chains.flatten.flatMap (extents E.blockSize))
  count_eq : db.count.toNat = (chains.flatten.map (·.2.occupied.length)).sum

variable {E : Env}

/-! ## What the invariant gives -/

/-- Every hash has a chain. -/
theorem blockIndex_lt_of_counters {db : HashDB} (lv : db.level.toNat < 32) (h : UInt32) :
    (db.blockIndex h).toNat < 2 ^ db.level.toNat + db.splitBlockIdx.toNat := by
  have two := mod_two_pow_succ_cases h.toNat db.level.toNat
  have low := Nat.mod_lt h.toNat (Nat.two_pow_pos db.level.toNat)
  rw [db.blockIndex_toNat h lv]
  split_ifs <;> omega

theorem Inv.blockIndex_lt {db : HashDB} {cs : List (List (Loc × Block))} (inv : Inv E db cs) (h : UInt32) :
    (db.blockIndex h).toNat < cs.length :=
  inv.length_eq ▸ inv.nBlocks_eq ▸ blockIndex_lt_of_counters inv.level_lt h

theorem Inv.stored_chain {db : HashDB} {cs : List (List (Loc × Block))} (inv : Inv E db cs) {i : Nat}
    (hi : i < cs.length) : db.Stored E cs[i] :=
  fun p m => inv.stored p (List.mem_flatten.mpr ⟨_, List.getElem_mem hi, m⟩)

/-- The key and the value of every occupied slot lie inside the data file: they read. -/
theorem Inv.reads {db : HashDB} {cs : List (List (Loc × Block))} (inv : Inv E db cs) {p : Loc × Block}
    (m : p ∈ cs.flatten) {x : Slot} (mx : x ∈ p.2.occupied) :
    db.data.readKey x = some (db.data.slotKey x) ∧ db.data.readKeyValue x = some (db.data.slotKeyValue x) := by
  have inside := inv.layout.inside x.extent (List.mem_append_right _
    (List.mem_flatMap.mpr ⟨p, m, List.mem_append_right _ (List.mem_map_of_mem _ mx)⟩))
  exact DataFile.reads_of_inside ⟨(Int.natCast_nonneg _).trans inside.1, inside.2⟩

/-! ## No block in two places -/

theorem headAt_injective (bs : 0 < E.blockSize) : Function.Injective (headAt E) := by
  intro i j h
  simp only [headAt, Loc.index.injEq, add_right_inj] at h
  exact Nat.eq_of_mul_eq_mul_left bs (by exact_mod_cast h)

/-- Chains `k`, `k + 1`, ... have their first blocks, and only those, in the index file, at its
blocks `k`, `k + 1`, .... -/
theorem index_locs : ∀ (cs : List (List (Loc × Block))) (k : Nat),
    (∀ i (h : i < cs.length), Linked (headAt E (k + i)) cs[i]) →
      (cs.flatten.map (·.1)).filter (fun l => !l.isData) = (List.range' k cs.length).map (headAt E)
  | [], _, _ => rfl
  | c :: cs, k, hl => by
    have head : (c.map (·.1)).filter (fun l => !l.isData) = [headAt E k] := by
      simpa [headAt, Loc.isData] using (hl 0 (Nat.zero_lt_succ _)).index_locs
    have rest := index_locs cs (k + 1) fun i h => by
      simpa [Nat.add_assoc, Nat.add_comm 1 i] using hl (i + 1) (Nat.succ_lt_succ h)
    rw [List.flatten_cons, List.map_append, List.filter_append, head, rest, List.length_cons, List.range'_succ]
    rfl

/-- Chains whose overflow blocks are apart in the data file visit no location twice, and no two
share one. -/
theorem nodup_locs (bs : 0 < E.blockSize) {cs : List (List (Loc × Block))}
    (linked : ∀ i (h : i < cs.length), Linked (headAt E i) cs[i])
    (apart : (cs.flatten.flatMap (blockExtent E.blockSize ·.1)).Pairwise Apart) : (cs.flatten.map (·.1)).Nodup := by
  have index : ((cs.flatten.map (·.1)).filter fun l => !l.isData).Nodup := by
    rw [index_locs cs 0 fun i h => by simpa using linked i h]
    exact (List.nodup_range' _ _).map (headAt_injective bs)
  refine (List.filter_append_perm Loc.isData _).nodup_iff.mp
    (List.nodup_append.mpr ⟨nodup_data_locs bs apart, index, fun l m m' => ?_⟩)
  rw [List.mem_filter] at m m'
  simp [m.2] at m'

/-- (c) The chains are acyclic and pairwise disjoint. -/
theorem Inv.distinct (bs : 0 < E.blockSize) {db : HashDB} {cs : List (List (Loc × Block))} (inv : Inv E db cs) :
    (cs.flatten.map (·.1)).Nodup :=
  nodup_locs bs inv.linked inv.layout.chains_apart

/-- A chain visits no block twice, and its overflow blocks are blocks of the data file: it is no
longer than `forEachBlock`'s fuel. -/
theorem Inv.length_le_walkFuel (bs : 0 < E.blockSize) {db : HashDB} {cs : List (List (Loc × Block))}
    (inv : Inv E db cs) {i : Nat} (hi : i < cs.length) : cs[i].length ≤ db.walkFuel := by
  have hl := inv.linked i hi
  obtain ⟨p, rest, eq⟩ : ∃ p rest, cs[i] = p :: rest := List.exists_cons_of_ne_nil hl.ne_nil
  rw [eq] at hl
  have data : ∀ q ∈ rest, ∃ off, q.1 = .data off := by
    rcases hl.cons_inv.2 with ⟨rfl, -⟩ | ⟨-, tail⟩
    · simp
    · exact fun q m => (tail.locs q m).elim (fun h => ⟨_, h⟩) id
  have keys : ∀ q ∈ rest.map (·.1), q ∈ db.data.blocks.map (fun e => Loc.data e.1) := by
    intro x mx
    obtain ⟨q, m, rfl⟩ := List.mem_map.mp mx
    obtain ⟨off, hq⟩ := data q m
    have read := inv.stored_chain hi q (by rw [eq]; exact List.mem_cons_of_mem _ m)
    rw [hq] at read
    obtain ⟨before, after, split, -⟩ := mapGet_eq_some read
    rw [hq, split]
    simp
  have nodup : (rest.map (·.1)).Nodup := by
    have := (inv.distinct bs).sublist ((List.sublist_flatten_of_mem (List.getElem_mem hi)).map (·.1))
    rw [eq, List.map_cons] at this
    exact this.of_cons
  have := (nodup.subperm keys).length_le
  simp only [List.length_map] at this
  simp only [eq, List.length_cons, HashDB.walkFuel]
  omega

/-- `forEachBlock` walks chain `i` to its end, or to the block where the callback stops. -/
theorem Inv.walk (bs : 0 < E.blockSize) {db : HashDB} {cs : List (List (Loc × Block))} (inv : Inv E db cs) {i : Nat}
    (hi : i < cs.length)
    {σ : Type} (cb : σ → Loc → Block → σ × Bool) (s : σ) :
    db.forEachBlock E cb db.walkFuel (headAt E i) s = some (foldStop cb cs[i] s) :=
  forEachBlock_of_linked (inv.linked i hi) (inv.stored_chain hi) (inv.length_le_walkFuel bs hi) s

/-! ## A fresh index -/

theorem fresh_inv : Inv E (HashDB.fresh E) [[(headAt E 0, .zero)]] where
  level_lt := by simp [HashDB.fresh]
  split_lt := by simp [HashDB.fresh]
  nBlocks_eq := rfl
  length_eq := rfl
  index_size := by simp [HashDB.fresh]
  linked i h := by
    obtain rfl : i = 0 := by simpa using h
    exact .last rfl
  stored := by simp [HashDB.readBlock, headAt, HashDB.fresh, mapGet]
  packed := by simp [Block.zero_occupied.2]
  routed i h := by simp [Block.zero_occupied.1]
  layout := ⟨by simp [HashDB.fresh, extents, blockExtent, headAt, Block.zero_occupied.1],
    by simp [HashDB.fresh, extents, blockExtent, headAt, Block.zero_occupied.1], le_refl _⟩
  count_eq := by simp [HashDB.fresh, Block.zero_occupied.1]

/-! ## Rewriting one chain -/

/-- The blocks of the chains, with chain `i` replaced by `c`: `c`, then the others. -/
theorem flatten_set_perm {α : Type} (cs : List (List α)) {i : Nat} (hi : i < cs.length) (c : List α) :
    (cs.set i c).flatten.Perm (c ++ (cs.eraseIdx i).flatten) := by
  rw [List.set_eq_take_append_cons_drop, if_pos hi, List.eraseIdx_eq_take_drop_succ, List.flatten_append,
    List.flatten_cons, List.flatten_append, ← List.append_assoc, ← List.append_assoc]
  exact List.perm_append_comm.append_right _

theorem flatten_perm {α : Type} (cs : List (List α)) {i : Nat} (hi : i < cs.length) :
    cs.flatten.Perm (cs[i] ++ (cs.eraseIdx i).flatten) := by
  conv_lhs => rw [← List.take_append_drop i cs, List.drop_eq_getElem_cons hi]
  rw [List.eraseIdx_eq_take_drop_succ, List.flatten_append, List.flatten_cons, List.flatten_append,
    ← List.append_assoc, ← List.append_assoc]
  exact List.perm_append_comm.append_right _

theorem blockIndex_congr {db db' : HashDB} (lv : db'.level = db.level) (sp : db'.splitBlockIdx = db.splitBlockIdx) :
    db'.blockIndex = db.blockIndex := by
  funext h
  simp only [HashDB.blockIndex, lv, sp]

section
variable {db : HashDB} {cs : List (List (Loc × Block))} {i : Nat}

theorem Inv.mem_flatten (hi : i < cs.length) {p : Loc × Block} (m : p ∈ cs[i]) : p ∈ cs.flatten :=
  List.mem_flatten.mpr ⟨_, List.getElem_mem hi, m⟩

theorem extents_perm_at (hi : i < cs.length) :
    (cs.flatten.flatMap (extents E.blockSize)).Perm
      (cs[i].flatMap (extents E.blockSize) ++ (cs.eraseIdx i).flatten.flatMap (extents E.blockSize)) :=
  List.flatMap_append _ _ _ ▸ (flatten_perm cs hi).flatMap_right _

/-- The layout, chain `i` first. -/
theorem Inv.layout_at (inv : Inv E db cs) (hi : i < cs.length) :
    Layout E.headerSize db.data
      (cs[i].flatMap (extents E.blockSize) ++ (cs.eraseIdx i).flatten.flatMap (extents E.blockSize)) :=
  inv.layout.perm (extents_perm_at hi)

/-- The count, chain `i` first. -/
theorem Inv.count_at (inv : Inv E db cs) (hi : i < cs.length) :
    db.count.toNat =
      (cs[i].map (·.2.occupied.length)).sum + ((cs.eraseIdx i).flatten.map (·.2.occupied.length)).sum := by
  rw [inv.count_eq, ← List.sum_append, ← List.map_append]
  exact ((flatten_perm cs hi).map _).sum_eq

/-- Chain `i` replaced by `c'`, the other chains as they were: the invariant holds of the new
state if `c'` is a chain of packed blocks routed to `i`, stored in the new state, which reads
as the old one everywhere else, and the data file's layout and the count account for it. -/
theorem Inv.replace (bs : 0 < E.blockSize) {db' : HashDB} (inv : Inv E db cs) (hi : i < cs.length)
    {c' : List (Loc × Block)} (lv : db'.level = db.level) (sp : db'.splitBlockIdx = db.splitBlockIdx)
    (nb : db'.nBlocks = db.nBlocks) (size : db'.index.size = db.index.size) (linked : Linked (headAt E i) c')
    (stored : ∀ p ∈ c', db'.readBlock E p.1 = some p.2)
    (frame : ∀ loc ∉ c'.map (·.1), db'.readBlock E loc = db.readBlock E loc) (packed : ∀ p ∈ c', p.2.Packed)
    (routed : ∀ p ∈ c', ∀ sl ∈ p.2.occupied, (db.blockIndex sl.hash).toNat = i)
    (layout : Layout E.headerSize db'.data
      (c'.flatMap (extents E.blockSize) ++ (cs.eraseIdx i).flatten.flatMap (extents E.blockSize)))
    (count : db'.count.toNat =
      (c'.map (·.2.occupied.length)).sum + ((cs.eraseIdx i).flatten.map (·.2.occupied.length)).sum) :
    Inv E db' (cs.set i c') := by
  have perm := flatten_set_perm cs hi c'
  have other : ∀ p ∈ (cs.eraseIdx i).flatten, p ∈ cs.flatten := fun p m =>
    (flatten_perm cs hi).mem_iff.mpr (List.mem_append_right _ m)
  have linked' : ∀ j (h : j < (cs.set i c').length), Linked (headAt E j) (cs.set i c')[j] := fun j hj => by
    rw [List.getElem_set]
    split
    · subst i
      exact linked
    · exact inv.linked j (by simpa using hj)
  have layout' : Layout E.headerSize db'.data ((cs.set i c').flatten.flatMap (extents E.blockSize)) :=
    layout.perm (List.flatMap_append _ _ _ ▸ (perm.flatMap_right _).symm)
  have apart : (c'.map (·.1)).Disjoint ((cs.eraseIdx i).flatten.map (·.1)) := by
    have := (perm.map (·.1)).nodup_iff.mp (nodup_locs bs linked' layout'.chains_apart)
    rw [List.map_append, List.nodup_append] at this
    exact this.2.2
  refine ⟨lv ▸ inv.level_lt, lv ▸ sp ▸ inv.split_lt, lv ▸ sp ▸ nb ▸ inv.nBlocks_eq, ?_, nb ▸ size ▸ inv.index_size,
    linked', fun p m => ?_, fun p m => ?_, fun j hj p m sl msl => ?_, layout', ?_⟩
  · rw [List.length_set, nb, inv.length_eq]
  · rcases List.mem_append.mp (perm.mem_iff.mp m) with m | m
    · exact stored p m
    · exact (frame p.1 fun m' => apart m' (List.mem_map_of_mem _ m)).trans (inv.stored p (other p m))
  · rcases List.mem_append.mp (perm.mem_iff.mp m) with m | m
    · exact packed p m
    · exact inv.packed p (other p m)
  · rw [blockIndex_congr lv sp]
    rw [List.getElem_set] at m
    split at m
    · subst i
      exact routed p m sl msl
    · exact inv.routed j (by simpa using hj) p m sl msl
  · rw [count, ← List.sum_append, ← List.map_append]
    exact ((perm.map _).sum_eq).symm

/-- Reading looks only at the data file's blocks: a new count and a data file with the same
blocks read the same. -/
theorem readBlock_with (D : HashDB) (c : UInt32) {f : DataFile} (blocks : f.blocks = D.data.blocks) :
    HashDB.readBlock E { D with count := c, data := f } = D.readBlock E :=
  HashDB.readBlock_of_eq rfl blocks

/-- Reading after a write at a location that could be read. -/
theorem reads_writeBlock (old : HashDB) {D : HashDB} (same : D.readBlock E = old.readBlock E) {l : Loc}
    (h : (old.readBlock E l).isSome) (b' : Block) (loc : Loc) :
    (D.writeBlock l b').readBlock E loc = if loc = l then some b' else old.readBlock E loc := by
  split
  · subst loc
    exact D.readBlock_writeBlock_self b' (same ▸ h)
  · rw [D.readBlock_writeBlock_ne b' (Ne.symm ‹_›), same]

/-- Reading after a write to the data file. -/
theorem reads_writeBlock_data (old : HashDB) {D : HashDB} (same : D.readBlock E = old.readBlock E) (r : Int)
    (b' : Block) (loc : Loc) :
    (D.writeBlock (.data r) b').readBlock E loc = if loc = .data r then some b' else old.readBlock E loc := by
  split
  · subst loc
    exact D.readBlock_writeBlock_writable b' trivial
  · rw [D.readBlock_writeBlock_ne b' (Ne.symm ‹_›), same]

/-- Reading after a new overflow block is written and then the block chained to it. -/
theorem reads_overflow (old : HashDB) {D : HashDB} (same : D.readBlock E = old.readBlock E) {l : Loc}
    (h : (old.readBlock E l).isSome) {r : Int} (ne : l ≠ .data r) (b1 b2 : Block) (loc : Loc) :
    ((D.writeBlock (.data r) b1).writeBlock l b2).readBlock E loc =
      if loc = l then some b2 else if loc = .data r then some b1 else old.readBlock E loc := by
  rw [reads_writeBlock (D.writeBlock (.data r) b1) rfl (by rw [reads_writeBlock_data old same, if_neg ne]; exact h),
    reads_writeBlock_data old same]

/-- The other blocks of chain `i` are not at the location of one of its blocks. -/
theorem Inv.ne_of_chain (bs : 0 < E.blockSize) (inv : Inv E db cs) (hi : i < cs.length)
    {pre post : List (Loc × Block)} {l : Loc} {b : Block} (hc : cs[i] = pre ++ (l, b) :: post) :
    ∀ p ∈ pre ++ post, p.1 ≠ l := by
  have nodup := (inv.distinct bs).sublist ((List.sublist_flatten_of_mem (List.getElem_mem hi)).map (·.1))
  rw [hc, List.map_append, List.map_cons, List.nodup_middle, List.nodup_cons, ← List.map_append] at nodup
  exact fun p m h => nodup.1 (List.mem_map.mpr ⟨p, m, h⟩)

/-- One block of chain `i`, at `l`, rewritten with the same `next`, the state reading as before
everywhere else. -/
theorem Inv.rewrite (bs : 0 < E.blockSize) {db' : HashDB} (inv : Inv E db cs) (hi : i < cs.length)
    {pre post : List (Loc × Block)} {l : Loc} {b b' : Block} (hc : cs[i] = pre ++ (l, b) :: post)
    (lv : db'.level = db.level) (sp : db'.splitBlockIdx = db.splitBlockIdx) (nb : db'.nBlocks = db.nBlocks)
    (size : db'.index.size = db.index.size)
    (reads : ∀ loc, db'.readBlock E loc = if loc = l then some b' else db.readBlock E loc)
    (next : b'.next = b.next) (packed : b'.Packed) (routed : ∀ sl ∈ b'.occupied, (db.blockIndex sl.hash).toNat = i)
    (layout : Layout E.headerSize db'.data (extents E.blockSize (l, b') ++
      (pre.flatMap (extents E.blockSize) ++ post.flatMap (extents E.blockSize) ++
        (cs.eraseIdx i).flatten.flatMap (extents E.blockSize))))
    (count : db'.count.toNat + b.occupied.length = db.count.toNat + b'.occupied.length) :
    Inv E db' (cs.set i (pre ++ (l, b') :: post)) := by
  have ne := inv.ne_of_chain bs hi hc
  have old : ∀ p ∈ pre ++ post, p ∈ cs[i] := fun p m => by
    rw [hc]
    rcases List.mem_append.mp m with m | m
    · exact List.mem_append_left _ m
    · exact List.mem_append_right _ (List.mem_cons_of_mem _ m)
  have cases : ∀ {p}, p ∈ pre ++ (l, b') :: post → p = (l, b') ∨ p ∈ pre ++ post := fun m => by
    simp only [List.mem_append, List.mem_cons] at m ⊢
    tauto
  have total := inv.count_at hi
  rw [hc] at total
  refine inv.replace bs hi lv sp nb size ((hc ▸ inv.linked i hi).replace next) (fun p m => ?_) (fun loc m => ?_)
    (fun p m => ?_) (fun p m => ?_) (layout.perm (perm_of_count fun a => ?_)) ?_
  · rcases cases m with rfl | m
    · simp [reads]
    · rw [reads, if_neg (ne p m)]
      exact inv.stored p (Inv.mem_flatten hi (old p m))
  · rw [reads, if_neg fun h => m (by subst h; simp)]
  · rcases cases m with rfl | m
    · exact packed
    · exact inv.packed p (Inv.mem_flatten hi (old p m))
  · rcases cases m with rfl | m
    · exact routed
    · exact inv.routed i hi p (old p m)
  · simp only [List.flatMap_append, List.flatMap_cons, List.count_append]
    omega
  · simp only [List.map_append, List.map_cons, List.sum_append, List.sum_cons] at total ⊢
    omega

/-- Only the data file changed, its blocks kept: the invariant holds if the layout does. -/
theorem Inv.data_congr (inv : Inv E db cs) {f : DataFile} (layout : Layout E.headerSize f (cs.flatten.flatMap (extents E.blockSize)))
    (blocks : f.blocks = db.data.blocks) : Inv E { db with data := f } cs :=
  have same : HashDB.readBlock E { db with data := f } = db.readBlock E := HashDB.readBlock_of_eq rfl blocks
  ⟨inv.level_lt, inv.split_lt, inv.nBlocks_eq, inv.length_eq, inv.index_size, inv.linked,
    fun p m => same ▸ inv.stored p m, inv.packed, inv.routed, layout, inv.count_eq⟩

end

/-! ## `put` -/

/-- A list split at an index: what is before, the element, what is after. -/
theorem split_at {α : Type} (l : List α) {j : Nat} (lt : j < l.length) (x : α) :
    ∃ A B, l = A ++ l[j] :: B ∧ l.set j x = A ++ x :: B ∧ l.eraseIdx j = A ++ B :=
  ⟨l.take j, l.drop (j + 1), by rw [← List.drop_eq_getElem_cons lt, List.take_append_drop],
    by rw [List.set_eq_take_append_cons_drop, if_pos lt], List.eraseIdx_eq_take_drop_succ _ _⟩

theorem stops_of_free {read : Slot → Option Bytes} {h : UInt32} {key : Bytes} (sl : Slot) (free : sl.kvOffset = 0) :
    Stops read h key sl = true := by
  simp [Stops, free]

/-- The slot `put` writes: the key's hash, the lengths of the key and the value cut to `uint16`
and `uint32`, and the offset `writeKeyValue` gave. -/
def putSlot (hash : UInt32) (key value : Bytes) (expiresAt : UInt32) (off : Int) : Slot :=
  ⟨hash, key.length.toUInt16, value.length.toUInt32, expiresAt, off⟩

section Put
variable {db : HashDB} {cs : List (List (Loc × Block))} {hash : UInt32} {key value : Bytes} {expiresAt : UInt32}

/-- The slot `put` writes lies within the record `writeKeyValue` wrote: its sizes are the lengths
of the key and the value cut to `uint16` and `uint32`. -/
theorem put_slot_within (hash : UInt32) (key value : Bytes) (expiresAt : UInt32) (off : Int) :
    Within (putSlot hash key value expiresAt off).extent (off, key.length + value.length) := by
  have k : key.length.toUInt16.toNat ≤ key.length := Nat.mod_le _ _
  have v : value.length.toUInt32.toNat ≤ value.length := Nat.mod_le _ _
  simp only [Within, Slot.extent, Slot.kvSize, putSlot]
  omega

/-- The record `put` writes: the new slot's extent is apart from the rest, and not at 0. -/
theorem put_record_layout {f : DataFile} {used : List (Int × Nat)} (h : Layout E.headerSize f used)
    (hs : 0 < E.headerSize) (hash : UInt32) (key value : Bytes) (expiresAt : UInt32) :
    Layout E.headerSize (f.writeKeyValue key value).1
        ((putSlot hash key value expiresAt (f.writeKeyValue key value).2).extent :: used) ∧
      (putSlot hash key value expiresAt (f.writeKeyValue key value).2).kvOffset ≠ 0 := by
  obtain ⟨l, low⟩ := h.writeKeyValue key value
  exact ⟨l.shrink (put_slot_within hash key value expiresAt _), show (f.writeKeyValue key value).2 ≠ 0 by omega⟩

variable (hs : 0 < E.headerSize) (bs : 0 < E.blockSize) (inv : Inv E db cs)
  (hi : (db.blockIndex hash).toNat < cs.length)
include hs bs inv hi

omit hs bs in
/-- The last block of a chain. -/
theorem Inv.chain_last : ∃ pre p, cs[(db.blockIndex hash).toNat] = pre ++ [p] := by
  rcases List.eq_nil_or_concat cs[(db.blockIndex hash).toNat] with h | ⟨pre, p, h⟩
  · exact absurd h (inv.linked _ hi).ne_nil
  · exact ⟨pre, p, h.trans (List.concat_eq_append _ _)⟩

/-- `put` of a key that no block of its chain has a stopping slot for, below `MaxKeys`: a new
overflow block after the last, holding the key in its first slot. -/
theorem Inv.put_overflow {pre : List (Loc × Block)} {l : Loc} {b : Block}
    (hc : cs[(db.blockIndex hash).toNat] = pre ++ [(l, b)])
    (miss : ∀ p ∈ cs[(db.blockIndex hash).toNat], p.2.entries.findIdx? (Stops db.data.readKey hash key) = none)
    (room : db.count ≠ maxKeys) :
    Inv E (db.put E hash key value expiresAt).1 (cs.set (db.blockIndex hash).toNat
      (pre ++ [(l, b.setNext (db.data.allocate E.blockSize).2), (.data (db.data.allocate E.blockSize).2,
        Block.zero.set 0 (putSlot hash key value expiresAt ((db.data.allocate E.blockSize).1.writeKeyValue key value).2))])) := by
  unfold putSlot
  rw [put_of_overflow value expiresAt (inv.linked _ hi) (inv.stored_chain hi) (inv.length_le_walkFuel bs hi) hc miss]
  have mem : (l, b) ∈ cs.flatten := Inv.mem_flatten hi (by simp [hc])
  obtain ⟨alloc, low⟩ := (inv.layout_at hi).allocate E.blockSize
  have blocks := DataFile.allocate_blocks db.data E.blockSize
  generalize db.data.allocate E.blockSize = a at alloc low blocks ⊢
  obtain ⟨f1, r⟩ := a
  dsimp only at alloc low blocks ⊢
  rw [putAt_linked (s := ⟨f1, (.data r, .zero), some (l, b.setNext r), 0, false⟩) value expiresAt rfl room rfl]
  dsimp only
  obtain ⟨record, used⟩ := put_record_layout alloc hs hash key value expiresAt
  unfold putSlot at record used
  set sl : Slot := ⟨hash, key.length.toUInt16, value.length.toUInt32, expiresAt, (f1.writeKeyValue key value).2⟩
  obtain ⟨occ, packed⟩ := Block.zero_set_occupied used
  have fresh : ∀ p ∈ cs.flatten, p.1 ≠ .data r := by
    intro p m h
    have apart := (List.pairwise_cons.mp (List.pairwise_append.mp alloc.apart).2.1).1 (r, E.blockSize)
      ((extents_perm_at hi).mem_iff.mp (List.mem_flatMap.mpr ⟨p, m, by simp [extents, h, blockExtent]⟩))
    simp only [Apart] at apart
    omega
  have ne := inv.ne_of_chain bs hi (show _ = pre ++ (l, b) :: [] from hc)
  have reads := reads_overflow db (readBlock_with db (db.count + 1) (by simp [blocks] : (f1.writeKeyValue key value).1.blocks = _))
    (by rw [inv.stored _ mem]; rfl) (fresh _ mem)
    (Block.zero.set 0 sl) (b.setNext r)
  have total := inv.count_at hi
  rw [hc] at total
  refine inv.replace bs hi (by simp) (by simp) (by simp) (by simp)
    ((hc ▸ inv.linked _ hi).extend (show r ≠ 0 by omega) (show (Block.zero.set 0 sl).next = 0 from rfl)) (fun p m => ?_) (fun loc m => ?_) (fun p m => ?_)
    (fun p m => ?_) ((record.congr (by simp) (by simp)).perm (perm_of_count fun x => ?_)) ?_
  · simp only [List.mem_append, List.mem_cons, List.mem_singleton, List.not_mem_nil, or_false] at m
    rcases m with m | rfl | rfl
    · rw [reads, if_neg (ne p (by simpa using m)), if_neg (fresh p (Inv.mem_flatten hi (by simp [hc, m])))]
      exact inv.stored p (Inv.mem_flatten hi (by simp [hc, m]))
    · simp [reads]
    · rw [reads, if_neg (Ne.symm (fresh _ mem)), if_pos rfl]
  · simp only [List.map_append, List.map_cons, List.map_nil, List.mem_append, List.mem_cons, List.not_mem_nil,
      or_false, not_or] at m
    rw [reads, if_neg m.2.1, if_neg m.2.2]
  · simp only [List.mem_append, List.mem_cons, List.mem_singleton, List.not_mem_nil, or_false] at m
    rcases m with m | rfl | rfl
    · exact inv.packed p (Inv.mem_flatten hi (by simp [hc, m]))
    · exact Block.setNext_packed (inv.packed _ mem) _
    · exact packed
  · intro x mx
    simp only [List.mem_append, List.mem_cons, List.mem_singleton, List.not_mem_nil, or_false] at m
    rcases m with m | rfl | rfl
    · exact inv.routed _ hi p (by simp [hc, m]) x mx
    · exact inv.routed _ hi (l, b) (by simp [hc]) x (by simpa using mx)
    · rw [occ, List.mem_singleton] at mx
      rw [mx]
  · simp only [hc, extents, occ, Block.setNext_occupied, blockExtent, List.flatMap_append, List.flatMap_cons,
      List.flatMap_nil, List.map_cons, List.map_nil, List.count_append, List.count_cons, List.count_nil]
    omega
  · simp only [HashDB.writeBlock_count, toNat_succ_of_ne_maxKeys room, List.map_append, List.map_cons, List.map_nil,
      List.sum_append, List.sum_cons, List.sum_nil, Block.setNext_occupied, occ, List.length_singleton] at total ⊢
    omega

omit hs in
/-- `put` of a new key when the count is `MaxKeys` and no block has room: the invariant, with the
overflow block the walk allocated leaked. -/
theorem Inv.put_overflow_full {pre : List (Loc × Block)} {l : Loc} {b : Block}
    (hc : cs[(db.blockIndex hash).toNat] = pre ++ [(l, b)])
    (miss : ∀ p ∈ cs[(db.blockIndex hash).toNat], p.2.entries.findIdx? (Stops db.data.readKey hash key) = none)
    (full : db.count = maxKeys) : Inv E (db.put E hash key value expiresAt).1 cs := by
  rw [put_of_overflow value expiresAt (inv.linked _ hi) (inv.stored_chain hi) (inv.length_le_walkFuel bs hi) hc miss,
    putAt_full (s := ⟨_, (.data (db.data.allocate E.blockSize).2, .zero), some (l, b.setNext _), 0, false⟩) value expiresAt
      rfl full]
  exact inv.data_congr (((inv.layout_at hi).allocate E.blockSize).1.forget.perm (extents_perm_at hi).symm)
    (DataFile.allocate_blocks _ _)

/-- `put` of a new key into the first free slot of a block of its chain, below `MaxKeys`. -/
theorem Inv.put_fill {pre post : List (Loc × Block)} {l : Loc} {b : Block} {j : Nat}
    (hc : cs[(db.blockIndex hash).toNat] = pre ++ (l, b) :: post)
    (pass : ∀ p ∈ pre, p.2.entries.findIdx? (Stops db.data.readKey hash key) = none)
    (hit : b.entries.findIdx? (Stops db.data.readKey hash key) = some j) (free : (b.slot j).kvOffset = 0)
    (room : db.count ≠ maxKeys) :
    Inv E (db.put E hash key value expiresAt).1 (cs.set (db.blockIndex hash).toNat
      (pre ++ (l, b.set j (putSlot hash key value expiresAt (db.data.writeKeyValue key value).2)) :: post)) := by
  have mem : (l, b) ∈ cs.flatten := Inv.mem_flatten hi (by simp [hc])
  have hp : b.Packed := inv.packed _ mem
  unfold putSlot
  obtain ⟨rfl, space⟩ := Block.eq_of_findIdx?_free hp stops_of_free hit free
  rw [put_of_stop value expiresAt (inv.linked _ hi) (inv.stored_chain hi) (inv.length_le_walkFuel bs hi) hc pass hit
      fun used => absurd free used, putAt_new value expiresAt free room rfl]
  obtain ⟨record, used⟩ := put_record_layout (inv.layout_at hi) hs hash key value expiresAt
  unfold putSlot at record used
  obtain ⟨occ, packed⟩ := Block.occupied_fill hp space used
  refine inv.rewrite bs hi hc (by simp) (by simp) (by simp) (by simp)
    (reads_writeBlock db (readBlock_with db _ (DataFile.writeKeyValue_blocks _ _ _))
      (by rw [inv.stored _ mem]; rfl) _) rfl packed (fun sl m => ?_)
    ((record.congr (by simp) (by simp)).perm (perm_of_count fun x => ?_)) ?_
  · rw [occ, List.mem_append, List.mem_singleton] at m
    rcases m with m | rfl
    · exact inv.routed _ hi (l, b) (by simp [hc]) sl m
    · rfl
  · simp only [hc, extents, occ, List.flatMap_append, List.flatMap_cons, List.map_append, List.map_cons,
      List.map_nil, List.count_append, List.count_cons, List.count_nil]
    omega
  · simp [occ, toNat_succ_of_ne_maxKeys room]
    omega

omit hs in
/-- `put` of a new key into a free slot when the count is `MaxKeys`: `ErrFull`, nothing written. -/
theorem Inv.put_fill_full {pre post : List (Loc × Block)} {l : Loc} {b : Block} {j : Nat}
    (hc : cs[(db.blockIndex hash).toNat] = pre ++ (l, b) :: post)
    (pass : ∀ p ∈ pre, p.2.entries.findIdx? (Stops db.data.readKey hash key) = none)
    (hit : b.entries.findIdx? (Stops db.data.readKey hash key) = some j) (free : (b.slot j).kvOffset = 0)
    (full : db.count = maxKeys) : Inv E (db.put E hash key value expiresAt).1 cs := by
  rw [put_of_stop value expiresAt (inv.linked _ hi) (inv.stored_chain hi) (inv.length_le_walkFuel bs hi) hc pass hit
      fun used => absurd free used, putAt_full value expiresAt free full]
  exact inv.data_congr inv.layout rfl

/-- `put` of a key present in its chain: its slot rewritten, the old key and value freed. -/
theorem Inv.put_replace {pre post : List (Loc × Block)} {l : Loc} {b : Block} {j : Nat}
    (hc : cs[(db.blockIndex hash).toNat] = pre ++ (l, b) :: post)
    (pass : ∀ p ∈ pre, p.2.entries.findIdx? (Stops db.data.readKey hash key) = none)
    (hit : b.entries.findIdx? (Stops db.data.readKey hash key) = some j) (used : (b.slot j).kvOffset ≠ 0) :
    Inv E (db.put E hash key value expiresAt).1 (cs.set (db.blockIndex hash).toNat
      (pre ++ (l, b.set j (putSlot hash key value expiresAt (db.data.writeKeyValue key value).2)) :: post)) := by
  have mem : (l, b) ∈ cs.flatten := Inv.mem_flatten hi (by simp [hc])
  have hp : b.Packed := inv.packed _ mem
  have lt := Block.lt_of_findIdx?_used hp stops_of_free hit used
  have reads : (db.data.readKey (b.slot j)).isSome := by
    rw [(inv.reads mem (Block.slot_of_lt hp lt ▸ List.getElem_mem lt)).1]
    rfl
  unfold putSlot
  rw [put_of_stop value expiresAt (inv.linked _ hi) (inv.stored_chain hi) (inv.length_le_walkFuel bs hi) hc pass hit
      fun _ => reads, putAt_replace value expiresAt used rfl]
  dsimp only
  obtain ⟨record, pos⟩ := put_record_layout (inv.layout_at hi) hs hash key value expiresAt
  unfold putSlot at record pos
  set sl : Slot := ⟨hash, key.length.toUInt16, value.length.toUInt32, expiresAt, (db.data.writeKeyValue key value).2⟩
  obtain ⟨occ, packed⟩ := Block.occupied_set hp lt pos
  obtain ⟨A, B, split, replaced, -⟩ := split_at b.occupied lt sl
  have old : b.slot j = b.occupied[j] := Block.slot_of_lt hp lt
  have moved : ((b.occupied[j].kvOffset, b.occupied[j].kvSize) :: (extents E.blockSize (l, b.set j sl) ++
      (pre.flatMap (extents E.blockSize) ++ post.flatMap (extents E.blockSize) ++
        (cs.eraseIdx (db.blockIndex hash).toNat).flatten.flatMap (extents E.blockSize)))).Perm
      (sl.extent :: (cs[(db.blockIndex hash).toNat].flatMap (extents E.blockSize) ++
        (cs.eraseIdx (db.blockIndex hash).toNat).flatten.flatMap (extents E.blockSize))) := by
    refine perm_of_count fun x => ?_
    simp only [hc, extents, occ, replaced, List.flatMap_append, List.flatMap_cons, List.map_append, List.map_cons,
      List.count_append, List.count_cons]
    generalize b.occupied[j] = y at split ⊢
    rw [split]
    simp only [List.map_append, List.map_cons, List.count_append, List.count_cons, Slot.extent]
    omega
  refine inv.rewrite bs hi hc (by simp) (by simp) (by simp) (by simp) (fun loc => ?_) (Block.set_next b j sl) packed
    (fun x m => ?_) ?_ (by simp [occ])
  · rw [readBlock_with _ _ (DataFile.free_blocks _ _ _)]
    exact reads_writeBlock db (readBlock_with db _ (DataFile.writeKeyValue_blocks _ _ _))
      (by rw [inv.stored _ mem]; rfl) _ loc
  · rw [occ, replaced, List.mem_append, List.mem_cons] at m
    rcases m with m | rfl | m
    · exact inv.routed _ hi (l, b) (by simp [hc]) x (split ▸ List.mem_append_left _ m)
    · rfl
    · exact inv.routed _ hi (l, b) (by simp [hc]) x (split ▸ List.mem_append_right _ (List.mem_cons_of_mem _ m))
  · rw [old]
    exact (record.perm moved.symm).free.congr (by simp [DataFile.free]) (by simp)

/-- `put` keeps the invariant, whatever it returns. -/
theorem Inv.put (key value : Bytes) (expiresAt : UInt32) : ∃ cs', Inv E (db.put E hash key value expiresAt).1 cs' := by
  rcases first_some (fun p : Loc × Block => p.2.entries.findIdx? (Stops db.data.readKey hash key))
      cs[(db.blockIndex hash).toNat] with miss | ⟨pre, ⟨l, b⟩, post, j, hc, pass, hit⟩
  · obtain ⟨pre, ⟨l, b⟩, hc⟩ := inv.chain_last hi
    by_cases full : db.count = maxKeys
    · exact ⟨cs, inv.put_overflow_full bs hi hc miss full⟩
    · exact ⟨_, inv.put_overflow hs bs hi hc miss full⟩
  · by_cases free : (b.slot j).kvOffset = 0
    · by_cases full : db.count = maxKeys
      · exact ⟨cs, inv.put_fill_full bs hi hc pass hit free full⟩
      · exact ⟨_, inv.put_fill hs bs hi hc pass hit free full⟩
    · exact ⟨_, inv.put_replace hs bs hi hc pass hit free⟩

end Put

/-! ## `Delete` -/

/-- A slot where a scan found the key is one where its loop stopped, and occupied. -/
theorem scanBlock_found {read : Slot → Option Bytes} {h : UInt32} {key : Bytes} {b : Block} {j : Nat}
    (scan : scanBlock read h key b = .found j) :
    b.entries.findIdx? (Stops read h key) = some j ∧ (b.slot j).kvOffset ≠ 0 := by
  unfold scanBlock at scan
  split at scan
  · cases scan
  · split at scan
    · cases scan
    · split at scan
      · cases scan
        exact ⟨‹_›, ‹_›⟩
      · cases scan

section Delete
variable {db : HashDB} {cs : List (List (Loc × Block))} (bs : 0 < E.blockSize) (inv : Inv E db cs)
include bs inv

/-- The end of `Delete`: an occupied slot of a block of a chain removed and its key and value
freed. -/
theorem Inv.deleteAt {i : Nat} (hi : i < cs.length) {pre post : List (Loc × Block)} {l : Loc} {b : Block} {j : Nat}
    (hc : cs[i] = pre ++ (l, b) :: post) (lt : j < b.occupied.length) :
    Inv E (db.deleteAt l b j) (cs.set i (pre ++ (l, b.del j) :: post)) := by
  have mem : (l, b) ∈ cs.flatten := Inv.mem_flatten hi (by simp [hc])
  have hp := inv.packed _ mem
  obtain ⟨occ, packed⟩ := Block.occupied_del hp lt
  obtain ⟨A, B, split, -, erased⟩ := split_at b.occupied lt b.occupied[j]
  have old : b.slot j = b.occupied[j] := Block.slot_of_lt hp lt
  have moved : (cs[i].flatMap (extents E.blockSize) ++ (cs.eraseIdx i).flatten.flatMap (extents E.blockSize)).Perm
      ((b.occupied[j].kvOffset, b.occupied[j].kvSize) :: (extents E.blockSize (l, b.del j) ++
        (pre.flatMap (extents E.blockSize) ++ post.flatMap (extents E.blockSize) ++
          (cs.eraseIdx i).flatten.flatMap (extents E.blockSize)))) := by
    refine perm_of_count fun x => ?_
    simp only [hc, extents, occ, erased, List.flatMap_append, List.flatMap_cons, List.map_append, List.count_append,
      List.count_cons]
    generalize b.occupied[j] = y at split ⊢
    rw [split]
    simp only [List.map_append, List.map_cons, List.count_append, List.count_cons, Slot.extent]
    omega
  have total := inv.count_at hi
  rw [hc] at total
  simp only [List.map_append, List.map_cons, List.sum_append, List.sum_cons] at total
  refine inv.rewrite bs hi hc (by simp [HashDB.deleteAt]) (by simp [HashDB.deleteAt]) (by simp [HashDB.deleteAt])
    (by simp [HashDB.deleteAt]) (fun loc => ?_) (Block.del_next b j) packed (fun x m => ?_) ?_ ?_
  · rw [HashDB.deleteAt, readBlock_with _ _ (DataFile.free_blocks _ _ _)]
    exact reads_writeBlock db rfl (by rw [inv.stored _ mem]; rfl) _ loc
  · exact inv.routed i hi (l, b) (by simp [hc]) x (List.mem_of_mem_eraseIdx (occ ▸ m))
  · rw [HashDB.deleteAt, old]
    exact ((inv.layout_at hi).perm moved).free.congr (by simp [DataFile.free]) (by simp)
  · rw [HashDB.deleteAt, occ, List.length_eraseIdx, if_pos lt]
    dsimp only
    rw [UInt32.toNat_sub_of_le _ 1 (show 1 ≤ db.count.toNat by omega), show (1 : UInt32).toNat = 1 from rfl]
    omega

/-- `Delete` keeps the invariant. -/
theorem Inv.delete (key : Bytes) : ∃ cs', Inv E (db.delete E key).1 cs' := by
  have hi := inv.blockIndex_lt (E.hashOf key)
  obtain ⟨-, same | ⟨l, b, j, m, scan, eq⟩⟩ :=
    delete_of_chain (inv.linked _ hi) (inv.stored_chain hi) (inv.length_le_walkFuel bs hi)
      fun p m x mx => by rw [(inv.reads (Inv.mem_flatten hi m) mx).1]; rfl
  · exact ⟨cs, by rw [same]; exact inv⟩
  · obtain ⟨pre, post, hc⟩ := List.append_of_mem m
    obtain ⟨hit, used⟩ := scanBlock_found scan
    have lt := Block.lt_of_findIdx?_used (inv.packed _ (Inv.mem_flatten hi m)) stops_of_free hit used
    exact ⟨_, eq ▸ inv.deleteAt bs hi hc lt⟩

end Delete

/-! ## `split` -/

/-- The grown index file still holds every block it held. -/
theorem readBlock_grow {db : HashDB} {loc : Loc} {b : Block} (h : db.readBlock E loc = some b) :
    (db.grow E).readBlock E loc = some b := by
  cases loc with
  | index off =>
    simp only [HashDB.readBlock] at h ⊢
    split at h
    · rw [if_pos (by simp; omega)]
      exact h
    · cases h
  | data off => exact h

theorem foldl_free_blocks (n : Nat) : ∀ (offs : List Int) (f : DataFile),
    (offs.foldl (fun f off => f.free n off) f).blocks = f.blocks
  | [], _ => rfl
  | _ :: offs, _ => foldl_free_blocks n offs _

theorem foldl_free_size (n : Nat) : ∀ (offs : List Int) (f : DataFile),
    (offs.foldl (fun f off => f.free n off) f).size = f.size
  | [], _ => rfl
  | _ :: offs, _ => foldl_free_size n offs _

/-- The end of `split` changes the blocks, the data file and `nBlocks` only. -/
theorem splitAt_fields (g : HashDB) (st : SplitScan) :
    (g.splitAt E st).level = g.level ∧ (g.splitAt E st).splitBlockIdx = g.splitBlockIdx ∧
      (g.splitAt E st).nBlocks = g.nBlocks + 1 ∧ (g.splitAt E st).count = g.count ∧
      (g.splitAt E st).index.size = g.index.size ∧
      (g.splitAt E st).data.freelist =
        (st.overflowBlocks.foldl (fun f off => f.free E.blockSize off) st.data).freelist ∧
      (g.splitAt E st).data.size = (st.overflowBlocks.foldl (fun f off => f.free E.blockSize off) st.data).size := by
  obtain ⟨ib, dbk, h⟩ := HashDB.writes_eq (st.created.blocks ++ st.updated.blocks)
    { g with data := st.overflowBlocks.foldl (fun f off => f.free E.blockSize off) st.data }
  simp [HashDB.splitAt, h]

/-- Block `i` of an index file of at least `n > i` blocks can be written. -/
theorem headAt_writable {D : HashDB} {i n : Nat} (le : i + 1 ≤ n)
    (size : E.headerSize + n * E.blockSize ≤ D.index.size) : D.Writable E (headAt E i) := by
  have mul : E.blockSize * i + E.blockSize ≤ n * E.blockSize := by
    rw [← Nat.mul_succ, Nat.mul_comm n]
    exact Nat.mul_le_mul_left _ le
  show (E.headerSize : Int) + E.blockSize * i + E.blockSize ≤ D.index.size
  exact_mod_cast (show E.headerSize + E.blockSize * i + E.blockSize ≤ D.index.size by omega)

/-- The chains after `split`: chain `i` replaced by `c`, and `c2` added at the end. -/
theorem flatten_split_perm {α : Type} (cs : List (List α)) {i : Nat} (hi : i < cs.length) (c c2 : List α) :
    (cs.set i c ++ [c2]).flatten.Perm (c ++ c2 ++ (cs.eraseIdx i).flatten) := by
  rw [List.flatten_concat]
  refine ((flatten_set_perm cs hi c).append_right c2).trans ?_
  rw [List.append_assoc, List.append_assoc]
  exact List.perm_append_comm.append_left c

theorem linked_split {cs : List (List (Loc × Block))} (linked : ∀ j (h : j < cs.length), Linked (headAt E j) cs[j])
    {i : Nat} {c c2 : List (Loc × Block)} (hc : Linked (headAt E i) c) (hc2 : Linked (headAt E cs.length) c2) :
    ∀ j (h : j < (cs.set i c ++ [c2]).length), Linked (headAt E j) (cs.set i c ++ [c2])[j] := by
  intro j h
  rw [List.length_append, List.length_set, List.length_singleton] at h
  rcases Nat.lt_or_ge j cs.length with lt | ge
  · rw [List.getElem_append_left (by simpa using lt), List.getElem_set]
    split
    · subst i
      exact hc
    · exact linked j lt
  · obtain rfl : j = cs.length := by omega
    rw [List.getElem_append_right (by simp)]
    simpa using hc2

theorem sum_occupied (c : List (Loc × Block)) :
    (c.map (·.2.occupied.length)).sum = (c.flatMap (·.2.occupied)).length :=
  (List.length_flatMap _ _).symm

/-- The slots of a chain, split by a test, as often as they were. -/
theorem count_filter_split {α β : Type} [DecidableEq β] (f : α → β) (p : α → Bool) (l : List α) (x : β) :
    ((l.filter p).map f).count x + ((l.filter fun a => !p a).map f).count x = (l.map f).count x := by
  rw [← List.count_append, ← List.map_append]
  exact ((List.filter_append_perm p l).map f).count_eq x

/-- The data file after `split`: the old chain's overflow blocks freed, the writers' blocks and
the slots' keys and values in use. -/
theorem split_layout {g : HashDB} {s0 : UInt32} {upd cre : Loc} {st : SplitScan} {c : List (Loc × Block)}
    {O : List (Int × Nat)} {i : Nat} (hl : Linked (headAt E i) c)
    (holds : st.Holds E g s0 upd cre (c.flatMap (extents E.blockSize) ++ O) (c.flatMap (·.2.occupied)))
    (over : st.overflowBlocks = (c.filter (·.2.next ≠ 0)).map (·.2.next)) :
    Layout E.headerSize (st.overflowBlocks.foldl (fun f off => f.free E.blockSize off) st.data)
      (st.updated.blocks.flatMap (extents E.blockSize) ++ st.created.blocks.flatMap (extents E.blockSize) ++ O) := by
  refine Layout.freeAll st.overflowBlocks (holds.layout.perm (perm_of_count fun x => ?_))
  have old := (flatMap_extents_perm E.blockSize c).count_eq x
  have upd := (flatMap_extents_perm E.blockSize st.updated.blocks).count_eq x
  have cre := (flatMap_extents_perm E.blockSize st.created.blocks).count_eq x
  have slots := count_filter_split Slot.extent (fun sl => decide (g.blockIndex sl.hash = s0)) (c.flatMap (·.2.occupied)) x
  rw [hl.blockExtents] at old
  rw [holds.updated.slots] at upd
  rw [holds.created.slots] at cre
  simp only [decide_not] at cre
  rw [over, List.map_map]
  simp only [List.count_append, Function.comp_def, headAt, blockExtent, List.nil_append] at *
  omega

section Split
variable {db : HashDB} {cs : List (List (Loc × Block))} (hs : 0 < E.headerSize) (bs : 0 < E.blockSize)
  (inv : Inv E db cs)

theorem Inv.split_lt_length (inv : Inv E db cs) : db.splitBlockIdx.toNat < cs.length := by
  have := Nat.one_le_two_pow (n := db.level.toNat)
  have := inv.split_lt
  have := inv.nBlocks_eq
  have := inv.length_eq
  omega

/-- Where a split leaves each occupied slot, under the grown directory: the updated writer's stay in
the split chain, the created writer's go to the new chain, and the other chains keep theirs. -/
theorem Inv.split_routed (inv : Inv E db cs) (hi : db.splitBlockIdx.toNat < cs.length) {st : SplitScan}
    {upd cre : Loc} {R : List (Int × Nat)}
    (holds : st.Holds E (db.grow E) db.splitBlockIdx upd cre R (cs[db.splitBlockIdx.toNat].flatMap (·.2.occupied)))
    (lv' : (db.grow E).level.toNat < 32) :
    ∀ j (hj : j < (cs.set db.splitBlockIdx.toNat st.updated.blocks ++ [st.created.blocks]).length),
      ∀ p ∈ (cs.set db.splitBlockIdx.toNat st.updated.blocks ++ [st.created.blocks])[j], ∀ x ∈ p.2.occupied,
        ((db.grow E).blockIndex x.hash).toNat = j := by
  intro j hj p m x mx
  have slot : ∀ {c : List (Loc × Block)} {P : Slot → Bool}, c.flatMap (·.2.occupied) =
      (cs[db.splitBlockIdx.toNat].flatMap (·.2.occupied)).filter P → p ∈ c → x ∈ p.2.occupied →
      P x = true ∧ (db.blockIndex x.hash).toNat = db.splitBlockIdx.toNat := fun {c} {P} hc mp mx' => by
    have : x ∈ c.flatMap (·.2.occupied) := List.mem_flatMap.mpr ⟨p, mp, mx'⟩
    rw [hc, List.mem_filter, List.mem_flatMap] at this
    obtain ⟨⟨q, mq, mx''⟩, hx⟩ := this
    exact ⟨hx, inv.routed _ hi q mq x mx''⟩
  have grow := HashDB.blockIndex_grow E inv.level_lt inv.split_lt lv' x.hash
  rw [List.length_append, List.length_set, List.length_singleton] at hj
  rcases Nat.lt_or_ge j cs.length with lt | ge
  · rw [List.getElem_append_left (by simpa using lt), List.getElem_set] at m
    split at m
    · subst j
      obtain ⟨hx, -⟩ := slot holds.updated.slots m mx
      rw [of_decide_eq_true hx]
    · have old := inv.routed j lt p m x mx
      rw [grow.1 (by omega), old]
  · obtain rfl : j = cs.length := by omega
    rw [List.getElem_append_right (by simp)] at m
    simp only [List.length_set, Nat.sub_self, List.getElem_singleton] at m
    obtain ⟨hx, old⟩ := slot holds.created.slots m mx
    have ne : ((db.grow E).blockIndex x.hash).toNat ≠ db.splitBlockIdx.toNat :=
      fun h => of_decide_eq_true hx (UInt32.toNat.inj h)
    rcases grow.2 old with same | up
    · exact absurd same ne
    · rw [up, inv.length_eq, inv.nBlocks_eq]

include hs bs inv

/-- `split`'s walk over the chain it splits: every occupied slot goes to the writer of the chain
`blockIndex` now picks for it, and the overflow blocks are kept to be freed. -/
theorem Inv.split_walk (hi : db.splitBlockIdx.toNat < cs.length) :
    ∃ st : SplitScan, db.split E .reliable = ((db.grow E).splitAt E st, none) ∧
    st.Holds E (db.grow E) db.splitBlockIdx (HashDB.head E db.splitBlockIdx) (.index db.index.size)
      (cs[db.splitBlockIdx.toNat].flatMap (extents E.blockSize) ++
        (cs.eraseIdx db.splitBlockIdx.toNat).flatten.flatMap (extents E.blockSize))
      (cs[db.splitBlockIdx.toNat].flatMap (·.2.occupied)) ∧
    st.overflowBlocks = (cs[db.splitBlockIdx.toNat].filter (·.2.next ≠ 0)).map (·.2.next) := by
  have hi := inv.split_lt_length
  have start : SplitScan.Holds E (db.grow E) db.splitBlockIdx (HashDB.head E db.splitBlockIdx) (.index db.index.size)
      (cs[db.splitBlockIdx.toNat].flatMap (extents E.blockSize) ++
        (cs.eraseIdx db.splitBlockIdx.toNat).flatten.flatMap (extents E.blockSize))
      ⟨.start (HashDB.head E db.splitBlockIdx), .start (.index db.index.size), db.data, [], none⟩ [] :=
    ⟨rfl, EntryWriter.start_holds _, EntryWriter.start_holds _, inv.layout_at hi, rfl⟩
  obtain ⟨holds, over⟩ := SplitScan.Holds.walk hs cs[db.splitBlockIdx.toNat] start
  refine ⟨_, ?_, by simpa using holds, by simpa using over⟩
  have walk : (db.grow E).forEachBlock E (splitBlock E (db.grow E) db.splitBlockIdx .reliable) (db.grow E).walkFuel
      (HashDB.head E db.splitBlockIdx) ⟨.start (HashDB.head E db.splitBlockIdx), .start (.index db.index.size), db.data, [], none⟩ =
      some _ :=
    forEachBlock_of_linked (inv.linked _ hi) (fun p m => readBlock_grow (inv.stored_chain hi p m))
      (inv.length_le_walkFuel bs hi) _
  unfold HashDB.split
  rw [walk]
  simp only [holds.clean]
  rfl

/-- `split` walks its chain to the end: it returns no error, adds one block, and takes the grown
directory's counters. -/
theorem Inv.split_ok : (db.split E .reliable).2 = none ∧ (db.split E .reliable).1.nBlocks = db.nBlocks + 1 ∧
    (db.split E .reliable).1.level = (db.grow E).level ∧ (db.split E .reliable).1.splitBlockIdx = (db.grow E).splitBlockIdx := by
  obtain ⟨st, eq, -⟩ := inv.split_walk hs bs inv.split_lt_length
  obtain ⟨lv, sp, nb, -⟩ := splitAt_fields (db.grow E) st
  rw [eq]
  exact ⟨rfl, nb, lv, sp⟩

omit hs in
/-- `split` keeps the invariant as long as `nBlocks + 1` does not wrap: the chain split is
replaced by the blocks of the updated writer, and the created writer's blocks are a new chain. -/
theorem Inv.split_chains (room : db.nBlocks.toNat + 1 < 2 ^ 32) (hi : db.splitBlockIdx.toNat < cs.length)
    {st : SplitScan} (eq : db.split E .reliable = ((db.grow E).splitAt E st, none))
    (holds : st.Holds E (db.grow E) db.splitBlockIdx (HashDB.head E db.splitBlockIdx) (.index db.index.size)
      (cs[db.splitBlockIdx.toNat].flatMap (extents E.blockSize) ++
        (cs.eraseIdx db.splitBlockIdx.toNat).flatten.flatMap (extents E.blockSize))
      (cs[db.splitBlockIdx.toNat].flatMap (·.2.occupied)))
    (over : st.overflowBlocks = (cs[db.splitBlockIdx.toNat].filter (·.2.next ≠ 0)).map (·.2.next)) :
    Inv E (db.split E .reliable).1 (cs.set db.splitBlockIdx.toNat st.updated.blocks ++ [st.created.blocks]) := by
  rw [eq]
  obtain ⟨lv, sp, nb, count, size, freelist, dsize⟩ := splitAt_fields (db.grow E) st
  have counters := HashDB.grow_counters E inv.level_lt inv.split_lt
  have nBlocks := inv.nBlocks_eq
  have length := inv.length_eq
  have lv' := HashDB.grow_level_lt E inv.level_lt inv.split_lt (by omega)
  have nb' : (db.nBlocks + 1).toNat = db.nBlocks.toNat + 1 := by
    have : (db.nBlocks + 1).toNat = (db.nBlocks.toNat + 1) % 2 ^ 32 := BitVec.toNat_add _ _
    omega
  have cre_head : Loc.index db.index.size = headAt E cs.length := by
    rw [inv.index_size, length, Nat.mul_comm]
    simp only [headAt]
    push_cast
    rfl
  have linked' := linked_split inv.linked (i := db.splitBlockIdx.toNat) holds.updated.linked
    (cre_head ▸ holds.created.linked)
  have perm := flatten_split_perm cs hi st.updated.blocks st.created.blocks
  have other : ∀ p ∈ (cs.eraseIdx db.splitBlockIdx.toNat).flatten, p ∈ cs.flatten := fun p m =>
    (flatten_perm cs hi).mem_iff.mpr (List.mem_append_right _ m)
  have layout' : Layout E.headerSize ((db.grow E).splitAt E st).data
      ((cs.set db.splitBlockIdx.toNat st.updated.blocks ++ [st.created.blocks]).flatten.flatMap (extents E.blockSize)) :=
    ((split_layout (inv.linked _ hi) holds over).congr freelist dsize).perm
      (by rw [← List.flatMap_append, ← List.flatMap_append]; exact (perm.flatMap_right _).symm)
  have nodup := (perm.map (·.1)).nodup_iff.mp (nodup_locs bs linked' layout'.chains_apart)
  rw [List.map_append, List.map_append, List.nodup_append] at nodup
  have grown : E.headerSize + (cs.length + 1) * E.blockSize ≤ (db.grow E).index.size := by
    rw [HashDB.grow_index_size, inv.index_size, length, Nat.succ_mul]
    omega
  have writable : ∀ p ∈ st.created.blocks ++ st.updated.blocks, HashDB.Writable E
      { db.grow E with data := st.overflowBlocks.foldl (fun f off => f.free E.blockSize off) st.data } p.1 := by
    intro p m
    rcases List.mem_append.mp m with m | m
    · rcases holds.created.linked.locs p m with h | ⟨off, h⟩
      · rw [h, cre_head]
        exact headAt_writable (Nat.le_refl _) grown
      · rw [h]
        trivial
    · rcases holds.updated.linked.locs p m with h | ⟨off, h⟩
      · rw [h]
        exact headAt_writable (i := db.splitBlockIdx.toNat) (by omega) grown
      · rw [h]
        trivial
  obtain ⟨reads, frame⟩ := HashDB.readBlock_writes (st.created.blocks ++ st.updated.blocks)
    (by rw [List.map_append]; exact List.perm_append_comm.nodup_iff.mp nodup.1) writable
  have readD : HashDB.readBlock E ((db.grow E).splitAt E st) = HashDB.readBlock E
      ((st.created.blocks ++ st.updated.blocks).foldl (fun db lb => db.writeBlock lb.1 lb.2)
        { db.grow E with data := st.overflowBlocks.foldl (fun f off => f.free E.blockSize off) st.data }) :=
    HashDB.readBlock_of_eq rfl rfl
  have base : HashDB.readBlock E
      { db.grow E with data := st.overflowBlocks.foldl (fun f off => f.free E.blockSize off) st.data } =
      (db.grow E).readBlock E :=
    HashDB.readBlock_of_eq rfl (by rw [foldl_free_blocks, holds.blocks])
  have written : ∀ {p}, p ∈ st.updated.blocks ++ st.created.blocks → p ∈ st.created.blocks ++ st.updated.blocks :=
    fun m => List.perm_append_comm.mem_iff.mp m
  refine ⟨by rw [lv]; exact lv', by rw [lv, sp]; exact counters.2, ?_, by simp [length, nb, nb'], ?_, linked',
    fun p m => ?_, fun p m => ?_, fun j hj p m x mx => ?_, layout', ?_⟩
  · rw [nb, HashDB.grow_nBlocks, nb', lv, sp]
    omega
  · rw [size, nb, HashDB.grow_nBlocks, nb', HashDB.grow_index_size, inv.index_size, Nat.succ_mul]
    omega
  · rw [readD]
    rcases List.mem_append.mp (perm.mem_iff.mp m) with m | m
    · exact reads p (written m)
    · rw [frame p.1 fun m' => nodup.2.2 (by simpa [List.map_append, or_comm] using m') (List.mem_map_of_mem _ m), base]
      exact readBlock_grow (inv.stored p (other p m))
  · rcases List.mem_append.mp (perm.mem_iff.mp m) with m | m
    · rcases List.mem_append.mp m with m | m
      · exact holds.updated.packed p m
      · exact holds.created.packed p m
    · exact inv.packed p (other p m)
  · rw [blockIndex_congr lv sp]
    exact inv.split_routed hi holds lv' j hj p m x mx
  · rw [count, HashDB.grow_count, inv.count_at hi, (perm.map _).sum_eq]
    simp only [List.map_append, List.sum_append, sum_occupied, holds.updated.slots, holds.created.slots]
    have split := (List.filter_append_perm (fun sl => decide ((db.grow E).blockIndex sl.hash = db.splitBlockIdx))
      (cs[db.splitBlockIdx.toNat].flatMap (·.2.occupied))).length_eq
    simp only [List.length_append, decide_not] at split ⊢
    omega

/-- A `split` that returns nil keeps the invariant as long as `nBlocks + 1` does not wrap. -/
theorem Inv.split (room : db.nBlocks.toNat + 1 < 2 ^ 32) {io : SplitIO} (ok : (db.split E io).2 = none) :
    ∃ cs', Inv E (db.split E io).1 cs' := by
  obtain ⟨st, eq, holds, over⟩ := inv.split_walk hs bs inv.split_lt_length
  rw [split_eq_reliable ok]
  exact ⟨_, inv.split_chains bs room inv.split_lt_length eq holds over⟩

/-- The split that makes `nBlocks` wrap: from `2 ^ 32 - 1` blocks, the level goes to 32 and
`nBlocks + 1` is 0 on `uint32`. -/
theorem Inv.split_wraps (full : db.nBlocks.toNat = 2 ^ 32 - 1) :
    (db.split E .reliable).2 = none ∧ (db.split E .reliable).1.level = 32 ∧ (db.split E .reliable).1.nBlocks = 0 := by
  obtain ⟨ok, nb, lv, -⟩ := inv.split_ok hs bs
  have sum := inv.nBlocks_eq
  have level : db.level.toNat = 31 := by
    have up : 2 ^ 31 < 2 ^ (db.level.toNat + 1) := by
      rw [Nat.pow_succ]
      have := inv.split_lt
      omega
    have := (Nat.pow_lt_pow_iff_right (by decide)).mp up
    have := inv.level_lt
    omega
  have wraps : (db.grow E).level.toNat = 32 := by
    rcases db.grow_cases E inv.level_lt inv.split_lt with ⟨-, -, room⟩ | ⟨up, -, -⟩
    · rw [level] at sum room
      omega
    · rw [up, level]
  refine ⟨ok, UInt8.toNat.inj (by rw [lv, wraps]; decide), ?_⟩
  rw [nb]
  apply UInt32.toNat.inj
  rw [show (db.nBlocks + 1).toNat = (db.nBlocks.toNat + 1) % 2 ^ 32 from BitVec.toNat_add _ _, full]
  decide

end Split

/-! ## Runs -/

theorem put_nBlocks (db : HashDB) (hash : UInt32) (key value : Bytes) (expiresAt : UInt32) :
    (db.put E hash key value expiresAt).1.nBlocks = db.nBlocks := by
  unfold HashDB.put HashDB.putAt
  split
  · rfl
  · split
    · rfl
    · dsimp only
      split
      · rfl
      · split <;> (split <;> simp)

theorem delete_nBlocks (db : HashDB) (key : Bytes) : (db.delete E key).1.nBlocks = db.nBlocks := by
  unfold HashDB.delete
  split
  · split <;> simp [HashDB.deleteAt]
  · rfl

theorem run_append (db : HashDB) : ∀ ops ops' : List IndexOp,
    db.run E (ops ++ ops') = ((db.run E ops).1.run E ops' |>.1, (db.run E ops).2 ++ ((db.run E ops).1.run E ops').2)
  | [], _ => rfl
  | op :: ops, ops' => by
    rw [List.cons_append, HashDB.run, HashDB.run, run_append (db.step E op).1 ops ops']
    rfl

theorem run_single (db : HashDB) (op : IndexOp) : db.run E [op] = ((db.step E op).1, [(db.step E op).2]) := rfl

/-- Whether an operation is a `split`. -/
def isSplit : IndexOp → Bool
  | .split _ => true
  | _ => false

section Run
variable (hs : 0 < E.headerSize) (bs : 0 < E.blockSize)
include hs bs

/-- Every operation that returns nil keeps the invariant, a `split` as long as `nBlocks + 1` does
not wrap; only a `split` adds a block. -/
theorem Inv.step {db : HashDB} {cs : List (List (Loc × Block))} (inv : Inv E db cs) (op : IndexOp)
    (room : db.nBlocks.toNat + (if isSplit op then 1 else 0) < 2 ^ 32) (ok : (db.step E op).2 = none) :
    (∃ cs', Inv E (db.step E op).1 cs') ∧
      (db.step E op).1.nBlocks.toNat = db.nBlocks.toNat + (if isSplit op then 1 else 0) := by
  cases op with
  | put hash key value expiresAt => exact ⟨inv.put hs bs (inv.blockIndex_lt hash) key value expiresAt, by
      simp [HashDB.step, put_nBlocks, isSplit]⟩
  | delete key => exact ⟨inv.delete bs key, by simp [HashDB.step, delete_nBlocks, isSplit]⟩
  | split io =>
    have nb := (inv.split_ok hs bs).2.1
    have wrap : (db.nBlocks + 1).toNat = (db.nBlocks.toNat + 1) % 2 ^ 32 := BitVec.toNat_add _ _
    simp only [isSplit, if_true, HashDB.step] at room ok ⊢
    exact ⟨inv.split hs bs room ok, by rw [split_eq_reliable ok, nb, wrap]; omega⟩

/-- A run whose operations all return nil keeps the invariant as long as `nBlocks` does not wrap,
and adds one block per `split`. -/
theorem Inv.run : ∀ (ops : List IndexOp) {db : HashDB} {cs : List (List (Loc × Block))}, Inv E db cs →
    db.nBlocks.toNat + ops.countP isSplit < 2 ^ 32 → (∀ e ∈ (db.run E ops).2, e = none) →
      (∃ cs', Inv E (db.run E ops).1 cs') ∧ (db.run E ops).1.nBlocks.toNat = db.nBlocks.toNat + ops.countP isSplit
  | [], _, cs, inv, _, _ => ⟨⟨cs, inv⟩, rfl⟩
  | op :: ops, db, _, inv, room, ok => by
    have one : (if isSplit op then 1 else 0) ≤ (op :: ops).countP isSplit := by
      rw [List.countP_cons]
      omega
    obtain ⟨⟨cs1, inv1⟩, nb1⟩ := inv.step hs bs op (by omega) (ok _ (List.mem_cons_self _ _))
    have more := Inv.run ops inv1 (by rw [nb1, List.countP_cons] at *; omega) fun e m => ok e (List.mem_cons_of_mem _ m)
    refine ⟨more.1, ?_⟩
    rw [HashDB.run, more.2, nb1, List.countP_cons]
    omega

/-- Splits one after the other, all without error. -/
theorem Inv.run_splits : ∀ (n : Nat) {db : HashDB} {cs : List (List (Loc × Block))}, Inv E db cs →
    db.nBlocks.toNat + n < 2 ^ 32 →
      (db.run E (List.replicate n (.split .reliable))).2 = List.replicate n none ∧
        (∃ cs', Inv E (db.run E (List.replicate n (.split .reliable))).1 cs') ∧
        (db.run E (List.replicate n (.split .reliable))).1.nBlocks.toNat = db.nBlocks.toNat + n
  | 0, _, cs, inv, _ => ⟨rfl, ⟨cs, inv⟩, rfl⟩
  | n + 1, db, _, inv, room => by
    obtain ⟨⟨cs1, inv1⟩, nb1⟩ := inv.step hs bs (.split .reliable) (by simp [isSplit]; omega) (inv.split_ok hs bs).1
    simp only [isSplit, if_true] at nb1
    obtain ⟨errs, more, nb⟩ := Inv.run_splits n inv1 (by simp only [HashDB.step] at nb1 ⊢; omega)
    refine ⟨?_, more, ?_⟩
    · rw [List.replicate_succ, HashDB.run, errs, HashDB.step, (inv.split_ok hs bs).1, List.replicate_succ]
    · rw [List.replicate_succ, HashDB.run, nb]
      simp only [HashDB.step] at nb1 ⊢
      omega

/-- From `nBlocks + n = 2 ^ 32 - 1`, `n + 1` splits succeed and the last one wraps `nBlocks` to 0
and raises the level to 32. -/
theorem Inv.splits_wrap {db : HashDB} {cs : List (List (Loc × Block))} (inv : Inv E db cs) (n : Nat)
    (full : db.nBlocks.toNat + n = 2 ^ 32 - 1) :
    (db.run E (List.replicate (n + 1) (.split .reliable))).2 = List.replicate (n + 1) none ∧
      (db.run E (List.replicate (n + 1) (.split .reliable))).1.level = 32 ∧
      (db.run E (List.replicate (n + 1) (.split .reliable))).1.nBlocks = 0 := by
  obtain ⟨errs, ⟨cs', inv'⟩, nb⟩ := Inv.run_splits hs bs n inv (by omega)
  rw [List.replicate_succ', run_append, errs, List.replicate_succ']
  obtain ⟨ok, level, zero⟩ := inv'.split_wraps hs bs (by omega)
  rw [run_single, HashDB.step, ok, level, zero]
  exact ⟨rfl, rfl, rfl⟩

end Run

/-! ## The invariant over runs from a fresh index -/

/-- From a fresh index, any run of `put`, `Delete` and `split` with fewer than `2 ^ 32 - 1`
splits, in which every operation returns nil, ends in a state with the invariant: (a) the
counters and the index file agree and every hash has a chain below `nBlocks`; (b) each slot is in
the chain of its hash; (c) the chains are linked lists of packed blocks ending in `next = 0`, no
location in two places, and the holes, the overflow blocks and the records of the slots are apart
in the data file; (d) `count` is the number of occupied slots. -/
theorem run_keeps_index_invariant (E : Env) (hs : 0 < E.headerSize) (bs : 0 < E.blockSize) (ops : List IndexOp)
    (few : ops.countP isSplit < 2 ^ 32 - 1) (ok : ∀ e ∈ ((HashDB.fresh E).run E ops).2, e = none) :
    ∃ cs, Inv E ((HashDB.fresh E).run E ops).1 cs ∧ (cs.flatten.map (·.1)).Nodup ∧
      ∀ h : UInt32, (((HashDB.fresh E).run E ops).1.blockIndex h).toNat < ((HashDB.fresh E).run E ops).1.nBlocks.toNat := by
  obtain ⟨⟨cs, inv⟩, -⟩ := Inv.run hs bs ops fresh_inv (by simp [HashDB.fresh]; omega) ok
  exact ⟨cs, inv, inv.distinct bs, fun h => inv.length_eq ▸ inv.blockIndex_lt h⟩

/-- A 512-octet header, 4096-octet blocks, one hash for every key, and a filter every hash passes. -/
def pageEnv : Env := ⟨512, 4096, fun _ => 0, fun _ => true⟩

/-- A put, a split, another put and a delete from a fresh index, each returning nil. -/
theorem run_keeps_index_invariant_mixed_run :
    0 < pageEnv.headerSize ∧ 0 < pageEnv.blockSize ∧
      [IndexOp.put 1 [7] [8] 0, .split .reliable, .put 2 [9] [] 0, .delete [7]].countP isSplit < 2 ^ 32 - 1 ∧
      (∀ e ∈ ((HashDB.fresh pageEnv).run pageEnv [.put 1 [7] [8] 0, .split .reliable, .put 2 [9] [] 0, .delete [7]]).2,
        e = none) ∧
      ∃ cs, Inv pageEnv ((HashDB.fresh pageEnv).run pageEnv
        [.put 1 [7] [8] 0, .split .reliable, .put 2 [9] [] 0, .delete [7]]).1 cs :=
  have ok : ∀ e ∈ ((HashDB.fresh pageEnv).run pageEnv
      [.put 1 [7] [8] 0, .split .reliable, .put 2 [9] [] 0, .delete [7]]).2, e = none := by decide
  have kept := run_keeps_index_invariant pageEnv (by decide) (by decide)
    [.put 1 [7] [8] 0, .split .reliable, .put 2 [9] [] 0, .delete [7]] (by decide) ok
  ⟨by decide, by decide, by decide, ok, kept.imp fun _ h => h.1⟩

/-- After `2 ^ 32 - 1` splits from a fresh index, none of which fails, `nBlocks` has wrapped to 0
and the level is 32: `nBlocks = 2 ^ level + splitBlockIdx` no longer holds, and no hash has a
chain below `nBlocks`. -/
theorem splits_wrap_nBlocks :
    ((HashDB.fresh pageEnv).run pageEnv (List.replicate (2 ^ 32 - 1) (.split .reliable))).2 =
        List.replicate (2 ^ 32 - 1) none ∧
      ((HashDB.fresh pageEnv).run pageEnv (List.replicate (2 ^ 32 - 1) (.split .reliable))).1.level = 32 ∧
      ((HashDB.fresh pageEnv).run pageEnv (List.replicate (2 ^ 32 - 1) (.split .reliable))).1.nBlocks = 0 ∧
      ∀ h : UInt32, ¬ (((HashDB.fresh pageEnv).run pageEnv (List.replicate (2 ^ 32 - 1) (.split .reliable))).1.blockIndex h).toNat <
        ((HashDB.fresh pageEnv).run pageEnv (List.replicate (2 ^ 32 - 1) (.split .reliable))).1.nBlocks.toNat := by
  obtain ⟨errs, level, zero⟩ := Inv.splits_wrap (E := pageEnv) (by decide) (by decide) fresh_inv (2 ^ 32 - 2) (by decide)
  exact ⟨errs, level, zero, fun h => zero ▸ Nat.not_lt_zero _⟩

end UnitDB.Guarantees.LinearHashInvariant
