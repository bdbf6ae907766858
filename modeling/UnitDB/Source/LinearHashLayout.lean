import UnitDB.Source.LinearHashChains

/-!
# The data file's layout

What the data file holds: the holes of its freelist, the overflow blocks of the chains, and the
key and value of each occupied slot, each an extent (offset and length). `Layout` says that no
two of them overlap and that all lie between the header and the end of the file. Allocation
takes an extent from a hole or from the end of the file and keeps the layout
(`Layout.allocate`); freeing an extent in use makes it a hole (`Layout.free`).
-/

namespace UnitDB.Source.LinearHash

/-! ## Extents -/

/-- Two extents with no octet in common. -/
def Apart (e f : Int × Nat) : Prop := e.1 + e.2 ≤ f.1 ∨ f.1 + f.2 ≤ e.1

theorem Apart.symm {e f : Int × Nat} (h : Apart e f) : Apart f e := Or.symm h

/-- `e` lies within `g`. -/
def Within (e g : Int × Nat) : Prop := g.1 ≤ e.1 ∧ e.1 + e.2 ≤ g.1 + g.2

theorem Apart.of_within {e g f : Int × Nat} (h : Apart g f) (w : Within e g) : Apart e f := by
  unfold Apart Within at *
  omega

/-- An extent among others apart, replaced by pieces of it apart from each other. -/
theorem pairwise_apart_pieces {R es : List (Int × Nat)} {g : Int × Nat} (h : (g :: R).Pairwise Apart)
    (within : ∀ e ∈ es, Within e g) (pieces : es.Pairwise Apart) : (es ++ R).Pairwise Apart := by
  rw [List.pairwise_cons] at h
  exact List.pairwise_append.mpr ⟨pieces, h.2, fun e me r mr => (h.1 r mr).of_within (within e me)⟩

/-- Two lists with the same elements, each as often: a goal `omega` closes once counted. -/
theorem perm_of_count {α : Type} [DecidableEq α] {l l' : List α} (h : ∀ a, l.count a = l'.count a) : l.Perm l' :=
  List.perm_iff_count.mpr h

/-- The extent of a slot's key and value, as its sizes record it. -/
def Slot.extent (sl : Slot) : Int × Nat := (sl.kvOffset, sl.kvSize)

/-- What a block at `loc` takes itself: `blockSize` octets if it is an overflow block. -/
def blockExtent (blockSize : Nat) : Loc → List (Int × Nat)
  | .index _ => []
  | .data off => [(off, blockSize)]

/-- What a block of a chain takes in the data file: itself, and the key and value of each of
its occupied slots. -/
def extents (blockSize : Nat) (p : Loc × Block) : List (Int × Nat) :=
  blockExtent blockSize p.1 ++ p.2.occupied.map Slot.extent

/-- The extents of blocks: the blocks themselves, then the slots. -/
theorem flatMap_extents_perm (blockSize : Nat) (c : List (Loc × Block)) :
    (c.flatMap (extents blockSize)).Perm
      (c.flatMap (blockExtent blockSize ·.1) ++ (c.flatMap (·.2.occupied)).map Slot.extent) := by
  induction c with
  | nil => simp
  | cons p c ih =>
    simp only [List.flatMap_cons, extents, List.map_append, List.append_assoc]
    refine ((ih.append_left _).append_left _).trans (List.Perm.append_left _ ?_)
    rw [← List.append_assoc, ← List.append_assoc]
    exact List.perm_append_comm.append_right _

/-! ## Layout -/

/-- The holes of the freelist and the extents `used`: no two overlap, and all lie after the
header and before the end of the file. -/
structure Layout (hs : Nat) (f : DataFile) (used : List (Int × Nat)) : Prop where
  apart : (f.freelist ++ used).Pairwise Apart
  inside : ∀ e ∈ f.freelist ++ used, (hs : Int) ≤ e.1 ∧ e.1 + e.2 ≤ f.size
  header : hs ≤ f.size

section
variable {hs : Nat} {f : DataFile} {used : List (Int × Nat)}

theorem Layout.perm {used' : List (Int × Nat)} (h : Layout hs f used) (p : used.Perm used') : Layout hs f used' :=
  ⟨((p.append_left _).pairwise_iff Apart.symm).mp h.apart, fun e m => h.inside e ((p.append_left _).mem_iff.mpr m),
    h.header⟩

/-- The layout looks only at the freelist and the size. -/
theorem Layout.congr {f' : DataFile} (h : Layout hs f used) (holes : f'.freelist = f.freelist) (size : f'.size = f.size) :
    Layout hs f' used :=
  ⟨holes ▸ h.apart, holes ▸ size ▸ h.inside, size ▸ h.header⟩

/-- Extents in use replaced by pieces of one of them: the layout is kept. -/
theorem Layout.pieces {f' : DataFile} {used' : List (Int × Nat)} (h : Layout hs f used) (g : Int × Nat)
    (es R : List (Int × Nat)) (before : (f.freelist ++ used).Perm (g :: R))
    (after : (f'.freelist ++ used').Perm (es ++ R)) (within : ∀ e ∈ es, Within e g) (pieces : es.Pairwise Apart)
    (size : f'.size = f.size) : Layout hs f' used' := by
  have whole := h.inside g (before.mem_iff.mpr (List.mem_cons_self _ _))
  refine ⟨(after.pairwise_iff Apart.symm).mpr (pairwise_apart_pieces ((before.pairwise_iff Apart.symm).mp h.apart)
    within pieces), fun e me => ?_, size ▸ h.header⟩
  rw [size]
  rcases List.mem_append.mp (after.mem_iff.mp me) with me | me
  · have := within e me
    unfold Within at this
    exact ⟨by omega, by omega⟩
  · exact h.inside e (before.mem_iff.mpr (List.mem_cons_of_mem _ me))

/-- An extent in use may be shrunk to a part of it. -/
theorem Layout.shrink {e e' : Int × Nat} (h : Layout hs f (e :: used)) (w : Within e' e) : Layout hs f (e' :: used) :=
  h.pieces e [e'] (f.freelist ++ used) (perm_of_count fun a => by simp only [List.count_append, List.count_cons]; omega)
    (perm_of_count fun a => by simp only [List.count_append, List.count_cons, List.count_nil]; omega)
    (by simpa using w) (List.pairwise_singleton _ _) rfl

/-- An extent no longer counted as in use: it is leaked, neither a hole nor in use. -/
theorem Layout.forget {e : Int × Nat} (h : Layout hs f (e :: used)) : Layout hs f used :=
  ⟨h.apart.sublist (List.Sublist.append_left (List.sublist_cons_self _ _) _),
    fun x m => h.inside x (List.mem_append.mpr ((List.mem_append.mp m).imp id (List.mem_cons_of_mem _))), h.header⟩

/-- `free`: an extent in use becomes a hole. -/
theorem Layout.free {off : Int} {n : Nat} (h : Layout hs f ((off, n) :: used)) : Layout hs (f.free n off) used := by
  have same : (f.free n off).freelist ++ used = f.freelist ++ (off, n) :: used := by simp [DataFile.free]
  exact ⟨same ▸ h.apart, same ▸ h.inside, h.header⟩

/-- The first hole that holds `n` octets gives its first `n`; what is left of it stays a hole. -/
theorem takeHole_eq_some {n : Nat} :
    ∀ {l : List (Int × Nat)} {off : Int} {l' : List (Int × Nat)}, takeHole n l = some (off, l') →
      ∃ pre m post, l = pre ++ (off, m) :: post ∧ n ≤ m ∧
        l' = pre ++ ((if n = m then [] else [(off + n, m - n)]) ++ post)
  | [], _, _, h => by simp [takeHole] at h
  | (o, m) :: rest, off, l', h => by
    simp only [takeHole] at h
    split at h
    · simp only [Option.some.injEq, Prod.mk.injEq] at h
      obtain ⟨rfl, rfl⟩ := h
      exact ⟨[], m, rest, rfl, ‹_›, by split <;> rfl⟩
    · obtain ⟨⟨off', l''⟩, hr, he⟩ := Option.map_eq_some'.mp h
      simp only [Prod.mk.injEq] at he
      obtain ⟨rfl, rfl⟩ := he
      obtain ⟨pre, m', post, rfl, le, rfl⟩ := takeHole_eq_some hr
      exact ⟨(o, m) :: pre, m', post, rfl, le, rfl⟩

/-- `allocate`: the extent it gives is apart from every hole left and every extent in use. -/
theorem Layout.allocate (h : Layout hs f used) (n : Nat) :
    Layout hs (f.allocate n).1 (((f.allocate n).2, n) :: used) ∧ (hs : Int) ≤ (f.allocate n).2 := by
  unfold DataFile.allocate
  split
  · rename_i off freelist hole
    obtain ⟨pre, m, post, hl, le, rfl⟩ := takeHole_eq_some hole
    have inside := (h.inside (off, m) (by simp [hl])).1
    refine ⟨h.pieces (off, m) ((off, n) :: (if n = m then [] else [(off + n, m - n)])) (pre ++ post ++ used)
      (perm_of_count fun a => by rw [hl]; simp only [List.count_append, List.count_cons]; omega)
      (perm_of_count fun a => by simp only [List.count_append, List.count_cons]; omega) ?_ ?_ rfl, inside⟩
    · by_cases same : n = m
      · simp [same, Within]
      · simp [same, Within]
        omega
    · by_cases same : n = m <;> simp [same, Apart]
  · have header := h.header
    refine ⟨⟨?_, fun e me => ?_, by simp; omega⟩, by simpa using header⟩
    · have fits : ∀ e ∈ f.freelist ++ used, Apart (f.size, n) e := fun e me => .inr (h.inside e me).2
      exact (List.pairwise_middle Apart.symm).mpr (List.pairwise_cons.mpr ⟨fits, h.apart⟩)
    · simp only [List.mem_append, List.mem_cons] at me
      rcases me with me | rfl | me
      · have := h.inside e (by simp [me]); simp only; omega
      · simp only; omega
      · have := h.inside e (by simp [me]); simp only; omega

/-- `writeKeyValue`: the record's extent, as `allocate` gave it, is apart from the rest. -/
theorem Layout.writeKeyValue (h : Layout hs f used) (key value : Bytes) :
    Layout hs (f.writeKeyValue key value).1 (((f.writeKeyValue key value).2, key.length + value.length) :: used) ∧
      (hs : Int) ≤ (f.writeKeyValue key value).2 :=
  (h.allocate (key.length + value.length)).imp_left fun l => l.congr rfl rfl

/-- The extent taken last is apart from every extent in use before. -/
theorem Layout.apart_head {e : Int × Nat} (h : Layout hs f (e :: used)) : ∀ y ∈ used, Apart y e := fun y m =>
  ((List.pairwise_cons.mp (List.pairwise_append.mp h.apart).2.1).1 y m).symm

end

/-- Freeing extents one after the other. -/
theorem Layout.freeAll {hs n : Nat} :
    ∀ (offs : List Int) {f : DataFile} {used : List (Int × Nat)}, Layout hs f (offs.map (·, n) ++ used) →
      Layout hs (offs.foldl (fun f off => f.free n off) f) used
  | [], _, _, h => h
  | off :: offs, _, _, h => Layout.freeAll offs (Layout.free (h.perm List.perm_middle.symm |>.perm (by simp)))

/-- The blocks of a chain after its first are where the `next` of the others point. -/
theorem Linked.blockExtents (blockSize : Nat) {loc : Loc} {c : List (Loc × Block)} (hl : Linked loc c) :
    c.flatMap (blockExtent blockSize ·.1) =
      blockExtent blockSize loc ++ (c.filter (·.2.next ≠ 0)).map fun p => (p.2.next, blockSize) := by
  induction hl with
  | last next => simp [next]
  | link next _ ih =>
    rw [List.flatMap_cons, ih]
    simp [next, blockExtent]

/-! ## Distinct blocks -/

/-- A block of the data file, as opposed to one of the index file. -/
def Loc.isData : Loc → Bool
  | .index _ => false
  | .data _ => true

/-- Overflow blocks whose extents are apart are at distinct offsets. -/
theorem nodup_data_locs {bs : Nat} (pos : 0 < bs) :
    ∀ {ps : List (Loc × Block)}, (ps.flatMap (blockExtent bs ·.1)).Pairwise Apart →
      ((ps.map (·.1)).filter Loc.isData).Nodup
  | [], _ => List.nodup_nil
  | (.index _, _) :: ps, h => by
    have rest : ((ps.map (·.1)).filter Loc.isData).Nodup := nodup_data_locs pos (by simpa [blockExtent] using h)
    simpa [Loc.isData] using rest
  | (.data off, _) :: ps, h => by
    simp only [List.flatMap_cons, blockExtent, List.singleton_append, List.pairwise_cons] at h
    simp only [List.map_cons, List.filter_cons, Loc.isData, if_true, List.nodup_cons, List.mem_filter, List.mem_map]
    refine ⟨fun m => ?_, nodup_data_locs pos h.2⟩
    obtain ⟨⟨q, mq, hq⟩, -⟩ := m
    have := h.1 (off, bs) (List.mem_flatMap.mpr ⟨q, mq, by simp [hq, blockExtent]⟩)
    simp only [Apart] at this
    omega

/-- The extents of the blocks themselves are apart. -/
theorem Layout.blocks_apart {hs bs : Nat} {f : DataFile} {ps : List (Loc × Block)} {R : List (Int × Nat)}
    (h : Layout hs f (ps.flatMap (extents bs) ++ R)) : (ps.flatMap (blockExtent bs ·.1)).Pairwise Apart := by
  have all := (List.pairwise_append.mp h.apart).2.1
  have perm := (flatMap_extents_perm bs ps).append_right R
  exact (List.pairwise_append.mp (List.pairwise_append.mp ((perm.pairwise_iff Apart.symm).mp all)).1).1

theorem Layout.chains_apart {hs bs : Nat} {f : DataFile} {cs : List (List (Loc × Block))}
    (h : Layout hs f (cs.flatten.flatMap (extents bs))) : (cs.flatten.flatMap (blockExtent bs ·.1)).Pairwise Apart :=
  Layout.blocks_apart (R := []) (by rw [List.append_nil]; exact h)

/-- The only block of a chain in the index file is its first. -/
theorem Linked.index_locs {loc : Loc} {c : List (Loc × Block)} (hl : Linked loc c) :
    (c.map (·.1)).filter (fun l => !l.isData) = [loc].filter (fun l => !l.isData) := by
  induction hl with
  | last => rfl
  | link _ _ ih =>
    rw [List.map_cons, ← List.singleton_append, List.filter_append, ih]
    simp [Loc.isData]

/-! ## The entry writer -/

/-- An entry writer from `start` that has inserted the slots `ins`: its blocks are a chain of
packed blocks whose occupied slots are `ins` in order, every block before the one being filled
is full, and that one has `slotIdx` of them. -/
structure EntryWriter.Holds (w : EntryWriter) (start : Loc) (ins : List Slot) : Prop where
  linked : Linked start w.blocks
  packed : ∀ p ∈ w.blocks, p.2.Packed
  slots : w.blocks.flatMap (·.2.occupied) = ins
  full : ∀ p ∈ w.done, p.2.occupied.length = entriesPerBlock
  filling : w.cur.2.occupied.length = w.slotIdx

theorem EntryWriter.start_holds (loc : Loc) : (EntryWriter.start loc).Holds loc [] where
  linked := .last rfl
  packed := by simp [EntryWriter.start, EntryWriter.blocks, Block.zero_occupied.2]
  slots := by simp [EntryWriter.start, EntryWriter.blocks, Block.zero_occupied.1]
  full := by simp [EntryWriter.start]
  filling := by simp [EntryWriter.start, Block.zero_occupied.1]

section Writer
variable {E : Env} {w : EntryWriter} {start : Loc} {ins : List Slot}

/-- An `insert` whose allocation succeeds. -/
theorem EntryWriter.insert_reliable (E : Env) (w : EntryWriter) (data : DataFile) (sl : Slot) :
    ∃ r, w.insert E data sl none = .ok r := by
  unfold EntryWriter.insert
  split <;> exact ⟨_, rfl⟩

/-- An `insert` that succeeds does what it does when its allocation cannot fail. -/
theorem EntryWriter.insert_of_ok {data : DataFile} {sl : Slot} {allocErr : Option Error} {r : EntryWriter × DataFile}
    (ok : w.insert E data sl allocErr = .ok r) : w.insert E data sl none = .ok r := by
  unfold EntryWriter.insert at ok ⊢
  split at ok
  · split at ok
    · cases ok
    · rw [if_pos ‹_›]
      exact ok
  · rw [if_neg ‹_›]
    exact ok

/-- `insert`: the slot goes after the others, in the block being filled or, when it is full, in
a new overflow block taken from the data file. -/
theorem EntryWriter.Holds.insert (hw : w.Holds start ins) {data : DataFile} {R : List (Int × Nat)}
    (hl : Layout E.headerSize data (w.blocks.flatMap (blockExtent E.blockSize ·.1) ++ R)) (hs : 0 < E.headerSize)
    {sl : Slot} (used : sl.kvOffset ≠ 0) {allocErr : Option Error} {r : EntryWriter × DataFile}
    (ok : w.insert E data sl allocErr = .ok r) :
    r.1.Holds start (ins ++ [sl]) ∧ Layout E.headerSize r.2 (r.1.blocks.flatMap (blockExtent E.blockSize ·.1) ++ R) ∧
      r.2.blocks = data.blocks := by
  have blocks : w.blocks = w.done ++ [(w.cur.1, w.cur.2)] := rfl
  have ok := EntryWriter.insert_of_ok ok
  unfold EntryWriter.insert at ok
  split at ok
  · rename_i last
    cases ok
    obtain ⟨alloc, low⟩ := hl.allocate E.blockSize
    obtain ⟨occ, packed⟩ := Block.zero_set_occupied used
    have r0 : (data.allocate E.blockSize).2 ≠ 0 := by omega
    have shape : EntryWriter.blocks ⟨w.done ++ [(w.cur.1, w.cur.2.setNext (data.allocate E.blockSize).2)],
        (.data (data.allocate E.blockSize).2, Block.zero.set 0 sl), 1⟩ =
        w.done ++ [(w.cur.1, w.cur.2.setNext (data.allocate E.blockSize).2),
          (.data (data.allocate E.blockSize).2, Block.zero.set 0 sl)] := by
      simp [EntryWriter.blocks]
    have full : ∀ p ∈ w.done ++ [(w.cur.1, w.cur.2.setNext (data.allocate E.blockSize).2)],
        p.2.occupied.length = entriesPerBlock := by
      intro p mp
      rcases List.mem_append.mp mp with mp | mp
      · exact hw.full p mp
      · simp [List.mem_singleton.mp mp, hw.filling, last]
    refine ⟨⟨?_, ?_, ?_, full, by simp [occ]⟩, alloc.perm ?_, by simp⟩ <;> rw [shape]
    · exact (blocks ▸ hw.linked).extend r0 rfl
    · intro p mp
      simp only [List.mem_append, List.mem_cons, List.mem_singleton, List.not_mem_nil, or_false] at mp
      rcases mp with mp | rfl | rfl
      · exact hw.packed p (by simp [blocks, mp])
      · exact Block.setNext_packed (hw.packed w.cur (by simp [blocks])) _
      · exact packed
    · simpa [occ, blocks] using congrArg (· ++ [sl]) hw.slots
    · simp only [blocks, List.flatMap_append, List.flatMap_cons, List.flatMap_nil, blockExtent, List.append_nil,
        List.append_assoc] at *
      exact perm_of_count fun a => by simp only [List.count_append, List.count_cons, List.count_nil]; omega
  · rename_i room
    cases ok
    have lt : w.slotIdx < entriesPerBlock :=
      lt_of_le_of_ne (hw.filling ▸ Block.occupied_length_le _) room
    obtain ⟨occ, packed⟩ := Block.occupied_fill (hw.packed _ (by simp [blocks])) (hw.filling ▸ lt) used
    rw [hw.filling] at occ packed
    have shape : EntryWriter.blocks ⟨w.done, (w.cur.1, w.cur.2.set w.slotIdx sl), w.slotIdx + 1⟩ =
        w.done ++ [(w.cur.1, w.cur.2.set w.slotIdx sl)] := rfl
    refine ⟨⟨?_, ?_, ?_, hw.full, by simp [occ, hw.filling]⟩, ?_, rfl⟩ <;> rw [shape]
    · exact (blocks ▸ hw.linked).replace rfl
    · intro p mp
      simp only [List.mem_append, List.mem_singleton] at mp
      rcases mp with mp | rfl
      · exact hw.packed p (by simp [blocks, mp])
      · exact packed
    · simpa [occ, blocks] using congrArg (· ++ [sl]) hw.slots
    · simpa [blocks] using hl

end Writer

/-! ## The walk of `split` -/

/-- Where `split`'s walk is after the slots `slots`: no insert has failed, each writer holds the
slots routed to it, and the data file holds the two writers' overflow blocks apart from the
extents `R`. -/
structure SplitScan.Holds (E : Env) (g : HashDB) (s0 : UInt32) (upd cre : Loc) (R : List (Int × Nat))
    (st : SplitScan) (slots : List Slot) : Prop where
  clean : st.err = none
  updated : st.updated.Holds upd (slots.filter fun sl => g.blockIndex sl.hash = s0)
  created : st.created.Holds cre (slots.filter fun sl => g.blockIndex sl.hash ≠ s0)
  layout : Layout E.headerSize st.data (st.updated.blocks.flatMap (blockExtent E.blockSize ·.1) ++
    st.created.blocks.flatMap (blockExtent E.blockSize ·.1) ++ R)
  blocks : st.data.blocks = g.data.blocks

section Split
variable {E : Env} {g : HashDB} {s0 : UInt32} {upd cre : Loc} {R : List (Int × Nat)} {st : SplitScan}
  {slots : List Slot}

theorem routeSlot_overflowBlocks (io : SplitIO) (sl : Slot) :
    (routeSlot E g s0 io st sl).overflowBlocks = st.overflowBlocks := by
  unfold routeSlot
  split
  · rfl
  · dsimp only
    split <;> split <;> rfl

/-- One slot of `split`'s loop, with allocations that succeed, goes to the writer `blockIndex`
picks. -/
theorem SplitScan.Holds.route (h : st.Holds E g s0 upd cre R slots) (hs : 0 < E.headerSize) {sl : Slot}
    (used : sl.kvOffset ≠ 0) : (routeSlot E g s0 .reliable st sl).Holds E g s0 upd cre R (slots ++ [sl]) := by
  have alloc : SplitIO.reliable.overflow.getD (st.updated.done.length + st.created.done.length) none = none := rfl
  unfold routeSlot
  simp only [h.clean, alloc, Option.isSome_none, Bool.false_eq_true, if_false]
  split
  · rename_i hit
    obtain ⟨r, hr⟩ := EntryWriter.insert_reliable E st.updated st.data sl
    obtain ⟨holds, layout, blocks⟩ := h.updated.insert (R := st.created.blocks.flatMap (blockExtent E.blockSize ·.1) ++ R)
      (by simpa only [List.append_assoc] using h.layout) hs used hr
    simp only [hr]
    exact ⟨rfl, by simpa [hit] using holds, by simpa [hit] using h.created,
      by simpa only [List.append_assoc] using layout, blocks.trans h.blocks⟩
  · rename_i miss
    have swap : ∀ A B : List (Int × Nat), (A ++ B ++ R).Perm (B ++ (A ++ R)) := fun A B => by
      rw [← List.append_assoc]
      exact List.perm_append_comm.append_right _
    obtain ⟨r, hr⟩ := EntryWriter.insert_reliable E st.created st.data sl
    obtain ⟨holds, layout, blocks⟩ := h.created.insert (R := st.updated.blocks.flatMap (blockExtent E.blockSize ·.1) ++ R)
      (h.layout.perm (swap _ _)) hs used hr
    simp only [hr]
    exact ⟨rfl, by simpa [miss] using h.updated, by simpa [miss] using holds, layout.perm (swap _ _).symm,
      blocks.trans h.blocks⟩

/-- `split`'s loop over the occupied slots of a block. -/
theorem SplitScan.Holds.routeAll (hs : 0 < E.headerSize) :
    ∀ (occ : List Slot) {st : SplitScan} {slots : List Slot}, st.Holds E g s0 upd cre R slots →
      (∀ sl ∈ occ, sl.kvOffset ≠ 0) →
      (occ.foldl (routeSlot E g s0 .reliable) st).Holds E g s0 upd cre R (slots ++ occ) ∧
        (occ.foldl (routeSlot E g s0 .reliable) st).overflowBlocks = st.overflowBlocks
  | [], _, _, h, _ => by simpa using h
  | sl :: occ, st, slots, h, used => by
    have := routeAll hs occ (h.route hs (used sl (List.mem_cons_self _ _))) fun x m => used x (List.mem_cons_of_mem _ m)
    simpa [routeSlot_overflowBlocks] using this

/-- `split`'s callback on a block, once its loop is done. -/
theorem splitBlock_eq (io : SplitIO) (loc : Loc) (b : Block) :
    splitBlock E g s0 io st loc b =
      if (b.occupied.foldl (routeSlot E g s0 io) st).err.isSome then (b.occupied.foldl (routeSlot E g s0 io) st, true)
      else ({ b.occupied.foldl (routeSlot E g s0 io) st with
        overflowBlocks := if b.next ≠ 0 then (b.occupied.foldl (routeSlot E g s0 io) st).overflowBlocks ++ [b.next]
          else (b.occupied.foldl (routeSlot E g s0 io) st).overflowBlocks }, false) := rfl

/-- `split`'s walk over a chain: every occupied slot goes to a writer, in order, and the `next`
of every block but the last is kept to be freed. -/
theorem SplitScan.Holds.walk (hs : 0 < E.headerSize) :
    ∀ (c : List (Loc × Block)) {st : SplitScan} {slots : List Slot}, st.Holds E g s0 upd cre R slots →
      (foldStop (splitBlock E g s0 .reliable) c st).Holds E g s0 upd cre R (slots ++ c.flatMap (·.2.occupied)) ∧
        (foldStop (splitBlock E g s0 .reliable) c st).overflowBlocks =
          st.overflowBlocks ++ (c.filter (·.2.next ≠ 0)).map (·.2.next)
  | [], _, _, h => by simpa [foldStop] using h
  | (loc, b) :: c, st, slots, h => by
    obtain ⟨routed, same⟩ := h.routeAll hs b.occupied fun sl m => Block.used_of_mem_occupied m
    generalize hr : b.occupied.foldl (routeSlot E g s0 .reliable) st = r at routed same
    have step : splitBlock E g s0 .reliable st loc b =
        ({ r with overflowBlocks := if b.next ≠ 0 then r.overflowBlocks ++ [b.next] else r.overflowBlocks }, false) := by
      rw [splitBlock_eq, hr, if_neg (by simp [routed.clean])]
    obtain ⟨holds, over⟩ := walk hs c
      (show SplitScan.Holds E g s0 upd cre R
          { r with overflowBlocks := if b.next ≠ 0 then r.overflowBlocks ++ [b.next] else r.overflowBlocks }
          (slots ++ b.occupied) from
        ⟨routed.1, routed.2, routed.3, routed.4, routed.5⟩)
    simp only [foldStop, step, Bool.false_eq_true, if_false]
    refine ⟨by simpa using holds, ?_⟩
    rw [over, same]
    by_cases next : b.next = 0 <;> simp [next]

/-! ## A `split` that returns nil -/

/-- After an insert has failed, the loop changes nothing. -/
theorem foldl_routeSlot_failed (io : SplitIO) :
    ∀ (occ : List Slot) {st : SplitScan}, st.err.isSome → occ.foldl (routeSlot E g s0 io) st = st
  | [], _, _ => rfl
  | sl :: occ, st, failed => by
    rw [List.foldl_cons, show routeSlot E g s0 io st sl = st by simp [routeSlot, failed]]
    exact foldl_routeSlot_failed io occ failed

/-- A slot routed with no error is routed as it is when allocations cannot fail. -/
theorem routeSlot_reliable (io : SplitIO) {sl : Slot} (clean : (routeSlot E g s0 io st sl).err = none) :
    routeSlot E g s0 io st sl = routeSlot E g s0 .reliable st sl := by
  have alloc : SplitIO.reliable.overflow.getD (st.updated.done.length + st.created.done.length) none = none := rfl
  unfold routeSlot at clean ⊢
  rw [alloc]
  by_cases going : st.err.isSome
  · simp only [going, if_true]
  simp only [going, Bool.false_eq_true, if_false] at clean ⊢
  generalize io.overflow.getD (st.updated.done.length + st.created.done.length) none = a at clean ⊢
  by_cases hit : g.blockIndex sl.hash = s0 <;> simp only [hit, if_true, if_false] at clean ⊢
  · cases hins : st.updated.insert E st.data sl a with
    | error err => simp [hins] at clean
    | ok r => rw [EntryWriter.insert_of_ok hins]
  · cases hins : st.created.insert E st.data sl a with
    | error err => simp [hins] at clean
    | ok r => rw [EntryWriter.insert_of_ok hins]

theorem foldl_routeSlot_reliable (io : SplitIO) :
    ∀ (occ : List Slot) {st : SplitScan}, (occ.foldl (routeSlot E g s0 io) st).err = none →
      occ.foldl (routeSlot E g s0 io) st = occ.foldl (routeSlot E g s0 .reliable) st
  | [], _, _ => rfl
  | sl :: occ, st, clean => by
    have first : (routeSlot E g s0 io st sl).err = none := by
      cases e : (routeSlot E g s0 io st sl).err with
      | none => rfl
      | some err =>
        rw [List.foldl_cons, foldl_routeSlot_failed io occ (by simp [e]), e] at clean
        cases clean
    rw [List.foldl_cons, List.foldl_cons, ← routeSlot_reliable io first]
    exact foldl_routeSlot_reliable io occ clean

/-- `split`'s callback stops the walk exactly when an insert has failed. -/
theorem splitBlock_stop (io : SplitIO) (loc : Loc) (b : Block) :
    (splitBlock E g s0 io st loc b).2 = (splitBlock E g s0 io st loc b).1.err.isSome := by
  rw [splitBlock_eq]
  split <;> simp [*]

/-- A block walked with no error is walked as it is when allocations cannot fail. -/
theorem splitBlock_reliable (io : SplitIO) {loc : Loc} {b : Block} (clean : (splitBlock E g s0 io st loc b).1.err = none) :
    splitBlock E g s0 io st loc b = splitBlock E g s0 .reliable st loc b := by
  have routed : (b.occupied.foldl (routeSlot E g s0 io) st).err = none := by
    rw [splitBlock_eq] at clean
    split at clean
    · simp_all
    · exact clean
  rw [splitBlock_eq, splitBlock_eq, foldl_routeSlot_reliable io _ routed]

/-- A walk of `split` that ends with no error is the walk of a `split` whose allocations cannot
fail. -/
theorem forEachBlock_split_reliable (D : HashDB) (io : SplitIO) :
    ∀ {fuel : Nat} {loc : Loc} {st st' : SplitScan}, D.forEachBlock E (splitBlock E g s0 io) fuel loc st = some st' →
      st'.err = none → D.forEachBlock E (splitBlock E g s0 .reliable) fuel loc st = some st'
  | 0, _, _, _, h, _ => by simp [HashDB.forEachBlock] at h
  | fuel + 1, loc, st, st', h, clean => by
    simp only [HashDB.forEachBlock] at h ⊢
    cases hb : D.readBlock E loc with
    | none => simp [hb] at h
    | some b =>
      simp only [hb] at h ⊢
      have eq : splitBlock E g s0 io st loc b = splitBlock E g s0 .reliable st loc b := by
        apply splitBlock_reliable io
        split at h
        · cases h
          exact clean
        · rename_i go
          have := @splitBlock_stop E g s0 st io loc b
          simp only [Bool.or_eq_true, decide_eq_true_eq, not_or] at go
          simpa [go.1] using this.symm
      rw [← eq]
      split at h
      · rw [if_pos ‹_›]
        exact h
      · rw [if_neg ‹_›]
        exact forEachBlock_split_reliable D io h clean

/-- A `split` that returns nil did what it does when none of its calls can fail. -/
theorem split_eq_reliable {db : HashDB} {io : SplitIO} (ok : (db.split E io).2 = none) :
    db.split E io = db.split E .reliable := by
  unfold HashDB.split at ok ⊢
  split at ok
  · cases ok
  · split at ok
    · cases ok
    · rename_i st walk
      split at ok <;> try cases ok
      rename_i clean writeNew writeUpdated
      rw [forEachBlock_split_reliable _ io walk clean]
      simp only [clean]
      rfl

end Split

end UnitDB.Source.LinearHash
